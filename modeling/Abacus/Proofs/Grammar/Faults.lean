import Abacus.Proofs.Grammar.Activations
import Abacus.Proofs.Grammar.Neighbours
import Abacus.Proofs.Grammar.Soundness
import Abacus.Proofs.Text.Lexemes

/-!
# Which faults reading ends with

The reader answers whatever tokens it is given, and some of its answers are for tokens that no text
leads to. Tokens that pass the check end with one of six faults (`Fault.IsOfReader`): a comma
outside of a group, a `:=` that is not at the top level, an operator that misses its left operand,
parentheses around nothing, rows of different lengths, or nesting that is too deep. A token that
starts no operand, an expression without tokens, and an operator without binary meaning behind an
operand are never reported for a text (`Term.isOfText_of_parse`).

The invariant is the check itself. What checked tokens are cut into passes it again: the operands of
a chain (`Token.IsChecked.operands`) and the elements of a list in brackets
(`Token.isChecked_of_mem_elements`). In an operand, nothing follows a number, a name or a closing
bracket (`Token.IsChecked.eq_nil`), because what fits there is an operation, and the tokens would
have been cut at it. So its first token tells the form of the whole
(`Token.IsChecked.hasOperandForm`), and there is none for which the reader has no case.
-/

namespace Abacus

/-! ### Faults -/

/-- The faults with which reading checked tokens can end. -/
inductive Fault.IsOfReader : Fault → Prop
  | strayComma : IsOfReader .strayComma
  | strayDefine : IsOfReader .strayDefine
  | missingLeftOperand {o : Operator} (h : o.unary? = none) : IsOfReader (.missingLeftOperand o)
  | emptyParentheses : IsOfReader .emptyParentheses
  | raggedMatrix : IsOfReader .raggedMatrix
  | nesting : IsOfReader .nesting

/-- The faults with which reading a text can end. -/
inductive Fault.IsOfText : Fault → Prop
  | nonAscii : IsOfText .nonAscii
  | unreadable (rest : String) : IsOfText (.unreadable rest)
  | emptyText : IsOfText .emptyText
  | misplaced (which : Misplacement) : IsOfText (.misplaced which)
  | bracketMismatch : IsOfText .bracketMismatch
  | surplusClosing (position : Nat) : IsOfText (.surplusClosing position)
  | operatorAtEndOfText : IsOfText .operatorAtEndOfText
  | invalidHead (head : String) : IsOfText (.invalidHead head)
  | reader {fault : Fault} (h : fault.IsOfReader) : IsOfText fault

namespace Token

/-! ### Neighbours that do not fit -/

/-- No operator stands in front of a comma or a closing bracket. -/
theorem operator?_eq_none_of_fits {left right : Token} (h : Fits left right)
    (hr : right.endsElement) : left.operator? = none := by
  by_contra hop
  have hop : left.operator?.isSome := Option.isSome_iff_ne_none.2 hop
  have hr : (right.isClosing || right.isComma) = true := hr
  exact not_fits_of_occurs .operatorAtEnd (by simp [Misplacement.occurs, hop, hr]) h

/-- There is no empty element in front of a comma. -/
theorem not_fits_comma {left : Token} (hl : left.startsElement) : ¬ Fits left .comma :=
  not_fits_of_occurs .emptyElement (by simp [Misplacement.occurs, hl, isComma])

/-- Nor is there one behind a comma at the end of a list. -/
theorem not_fits_closing (b : Bracket) : ¬ Fits .comma (.closing b) :=
  not_fits_of_occurs .emptyElement rfl

/-- No operand follows an operand. -/
theorem not_fits_isOperand {left right : Token} (hl : left.endsOperand) (hr : right.isOperand) :
    ¬ Fits left right := by
  rcases Bool.or_eq_true_iff.1 hl with hl | hl
  · exact not_fits_of_occurs .operands (by simp [Misplacement.occurs, hl, hr])
  · exact not_fits_of_occurs .afterGroup (by simp [Misplacement.occurs, hl, hr])

/-- No bracket opens behind an operand, unless it is the list of arguments of a function. -/
theorem eq_of_fits_opening {left : Token} {b : Bracket} (h : Fits left (.opening b))
    (hl : left.endsOperand) : (∃ x, left = .name x) ∧ b = .round := by
  cases left with
  | number v => exact absurd h (not_fits_of_occurs .groupAfterOperand rfl)
  | name x =>
    cases b with
    | round => exact ⟨⟨x, rfl⟩, rfl⟩
    | curly => exact absurd h (not_fits_of_occurs .groupAfterOperand rfl)
  | closing c => exact absurd h (not_fits_of_occurs .afterGroup rfl)
  | _ => cases hl

/-- What follows an operand and is an operator has binary meaning. -/
theorem isSome_binary?_of_fits {left : Token} {o : Operator} (h : Fits left (.op o))
    (hl : left.endsOperand) : o.binary?.isSome := by
  by_contra ho
  have ho : o.binary?.isNone := by simpa using ho
  exact not_fits_of_occurs .unaryAfterOperand (by simp [Misplacement.occurs, hl, operator?, ho]) h

/-! ### Elements of a list -/

/-- Tokens in front of the end of an element pass the check if there are some. -/
theorem isChecked_of_append {item us : List Token} {t : Token} (hne : item ≠ [])
    (hnested : Nested item) (ht : t.endsElement) (h : (item ++ t :: us).IsChain Fits) :
    IsChecked item where
  ne_nil := hne
  fits := (List.isChain_append.1 h).1
  nested := hnested
  last u hu := operator?_eq_none_of_fits ((List.isChain_append.1 h).2.2 u hu t rfl) ht

/-- Items with commas between them, behind a token that starts an element and in front of a closing
bracket. Only a single item in brackets can be empty. -/
theorem isChecked_of_mem_items {items : List (List Token)} {l : Token} {b : Bracket}
    (hl : l.startsElement) (hne : l.isComma ∨ items ≠ [[]])
    (hnested : ∀ item ∈ items, Nested item)
    (h : (l :: (separated items ++ [.closing b])).IsChain Fits) :
    ∀ item ∈ items, IsChecked item := by
  induction items generalizing l with
  | nil => exact List.forall_mem_nil _
  | cons item items ih =>
    obtain ⟨hitem, hitems⟩ := List.forall_mem_cons.1 hnested
    cases items with
    | nil =>
      -- an empty item would stand behind a comma, or be all that is in the brackets
      have hitem_ne : item ≠ [] := by
        rintro rfl
        rcases hne with hcomma | hne
        · obtain rfl := eq_comma_of_isComma hcomma
          exact not_fits_closing b (List.isChain_cons_cons.1 h).1
        · exact hne rfl
      refine List.forall_mem_cons.2 ⟨?_, List.forall_mem_nil _⟩
      exact isChecked_of_append hitem_ne hitem rfl (List.isChain_cons.1 h).2
    | cons next items =>
      rw [separated_cons_cons, List.append_assoc, List.cons_append] at h
      have hitem_ne : item ≠ [] := by
        rintro rfl
        exact not_fits_comma hl (List.isChain_cons_cons.1 h).1
      have htail := (List.isChain_cons.1 h).2
      refine List.forall_mem_cons.2 ⟨isChecked_of_append hitem_ne hitem rfl htail, ?_⟩
      -- the comma is what stands in front of the other items
      exact ih rfl (.inl rfl) hitems (List.isChain_append.1 htail).2.1

/-- **The elements of a list pass the check**, if the list in its brackets does. -/
theorem isChecked_of_mem_elements {b : Bracket} {inner : List Token}
    (h : (inBrackets b inner).IsChain Fits) (hnested : Nested inner) :
    ∀ item ∈ elements inner, IsChecked item := by
  have hne : elements inner ≠ [[]] := by
    intro hempty
    -- an empty list has no elements
    have hinner := separated_elements inner
    rw [hempty] at hinner
    rw [← hinner] at hempty
    cases hempty
  refine isChecked_of_mem_items (l := .opening b) (b := b) rfl (.inr hne)
    (fun _ => nested_of_mem_elements hnested) ?_
  rw [separated_elements]
  exact h

/-! ### Operands of a chain -/

/-- In front of each operation of a chain stands the end of an operand. -/
def FollowOperands (previous : Option Token) (first : List Token) :
    List (BinaryOp × List Token) → Prop
  | [] => True
  | (_, us) :: links =>
    (first.getLast?.or previous).any endsOperand ∧ FollowOperands none us links

/-- A token in front of the first operand is what stands in front of its tokens. -/
theorem FollowOperands.cons {previous : Option Token} {t : Token} {first : List Token}
    {links : List (BinaryOp × List Token)} (h : FollowOperands (some t) first links) :
    FollowOperands previous (t :: first) links := by
  cases links with
  | nil => trivial
  | cons link links =>
    refine ⟨?_, h.2⟩
    rw [List.getLast?_cons]
    cases hlast : first.getLast? <;> simpa [FollowOperands, hlast] using h.1

/-- An operator is no end of an operand. -/
theorem FollowOperands.behind_op {o : Operator} {first : List Token}
    {links : List (BinaryOp × List Token)} (h : FollowOperands (some (.op o)) first links) :
    FollowOperands none first links := by
  cases links with
  | nil => trivial
  | cons link links =>
    refine ⟨?_, h.2⟩
    cases hlast : first.getLast? with
    | none => simp [FollowOperands, hlast, endsOperand, isOperand, isClosing] at h
    | some t => simpa [FollowOperands, hlast] using h.1

open Chain (marks cut linkTokens) in
/-- Tokens are cut at operations, and those follow operands. -/
theorem followOperands_cut {level : Int} {previous : Option Token} {ts : List Token}
    {ms : List (Token × Option BinaryOp)} (hms : marks level previous ts = .ok ms) (p : Nat) :
    FollowOperands previous (cut p ms).first (cut p ms).links := by
  induction ts generalizing level previous ms with
  | nil =>
    cases hms
    trivial
  | cons t ts ih =>
    obtain ⟨m, ms, hmark, hrest, rfl⟩ := Chain.marks_cons_eq_ok_iff.1 hms
    have hcut := ih hrest
    cases m with
    | none => exact hcut.cons
    | some op =>
      by_cases hop : op.priority = p
      · obtain ⟨-, hprevious, o, rfl, -⟩ := Chain.of_mark_eq_some hmark
        simp only [cut, hop, ↓reduceIte]
        exact ⟨hprevious, hcut.behind_op⟩
      · simp only [cut, hop, ↓reduceIte]
        exact hcut.cons

/-- The forms of an operand. What a bracket opens in it ends with the operand. -/
inductive HasOperandForm : List Token → Prop
  | op (o : Operator) (us : List Token) : HasOperandForm (.op o :: us)
  | number (v : Value) : HasOperandForm [.number v]
  | name (x : String) : HasOperandForm [.name x]
  | call (x : String) {inner : List Token} (h : Nested inner) :
    HasOperandForm (.name x :: inBrackets .round inner)
  | brackets (b : Bracket) {inner : List Token} (h : Nested inner) :
    HasOperandForm (inBrackets b inner)

namespace IsChecked

variable {ts us : List Token}

/-- Behind an operator in front of an operand. -/
theorem tail_op {o : Operator} (h : IsChecked (.op o :: ts)) : IsChecked ts := by
  have hne : ts ≠ [] := by
    rintro rfl
    cases h.last (.op o) rfl
  refine ⟨hne, (List.isChain_cons.1 h.fits).2, h.nested, fun t ht => h.last t ?_⟩
  rw [List.getLast?_cons, ht]
  rfl

/-- The operands are without an operator at the end, because that is where the next operation
follows an operand. -/
theorem operands_of_followOperands {first : List Token} {links : List (BinaryOp × List Token)}
    (h : IsChecked (first ++ Chain.linkTokens links))
    (hnested : ∀ us ∈ first :: links.map Prod.snd, Nested us)
    (hfollow : FollowOperands none first links) :
    ∀ us ∈ first :: links.map Prod.snd, IsChecked us := by
  induction links generalizing first with
  | nil =>
    rw [Chain.linkTokens, List.append_nil] at h
    exact List.forall_mem_cons.2 ⟨h, List.forall_mem_nil _⟩
  | cons link links ih =>
    obtain ⟨op, us⟩ := link
    obtain ⟨hfirst, hlinks⟩ := List.forall_mem_cons.1 hnested
    obtain ⟨hends, hrest⟩ := hfollow
    rw [Option.or_none] at hends
    have hfits := List.isChain_append.1 h.fits
    have hhead : IsChecked first := by
      refine ⟨?_, hfits.1, hfirst, fun t ht => ?_⟩
      · rintro rfl
        cases hends
      · -- the end of an operand is no operator
        rw [ht] at hends
        exact operator?_eq_none_of_endsOperand hends
    -- without the first operand and the operation, the same holds of the others
    have htail : IsChecked (.op op.operator :: (us ++ Chain.linkTokens links)) := by
      refine ⟨List.cons_ne_nil _ _, hfits.2.1, h.nested.of_append hfirst, fun t ht => h.last t ?_⟩
      rw [Chain.linkTokens, List.getLast?_append, ht]
      rfl
    exact List.forall_mem_cons.2 ⟨hhead, ih htail.tail_op hlinks hrest⟩

/-- **The operands of a chain pass the check**, if the tokens do that are cut into it. -/
theorem operands (h : IsChecked ts) {first : List Token} {link : BinaryOp × List Token}
    {links : List (BinaryOp × List Token)} (hc : Chain.ofTokens ts = .ok ⟨first, link :: links⟩) :
    ∀ us ∈ first :: (link :: links).map Prod.snd, IsChecked us := by
  obtain ⟨ms, hms, hcut, -, -⟩ := Chain.exists_marks_of_ofTokens hc
  have hfollow := followOperands_cut hms link.1.priority
  obtain ⟨hfirst, hlinks⟩ := @Chain.nested_cut [] _ _ _ h.nested hms link.1.priority
  have htokens := Chain.append_linkTokens_cut hms link.1.priority
  rw [hcut] at hfollow hfirst hlinks htokens
  rw [← htokens] at h
  refine h.operands_of_followOperands (List.forall_mem_cons.2 ⟨hfirst, ?_⟩) hfollow
  intro us hus
  obtain ⟨l, hl, rfl⟩ := List.mem_map.1 hus
  exact hlinks l hl

/-- Nothing stands behind the end of an operand that is not cut any more, unless that is a name in
front of its list of arguments: what fits there is an operation. -/
theorem eq_nil {t : Token} (h : IsChecked (ts ++ t :: us))
    (hbinds : BindsAtLeast 6 (ts ++ t :: us)) (hnested : Nested (ts ++ [t])) (ht : t.endsOperand)
    (hcall : ∀ x, t = .name x → us.head? ≠ some (.opening .round)) : us = [] := by
  cases us with
  | nil => rfl
  | cons u us =>
    exfalso
    rw [List.append_cons] at h hbinds
    have hfits : Fits t u := (List.isChain_append.1 h.fits).2.2 t (by simp) u rfl
    have hrest : openAfter [] (u :: us) = some [] := h.nested.of_append hnested
    -- the token is marked at level zero and behind an operand, but not as an operation
    obtain ⟨ms, hms, hops⟩ := hbinds.operations_eq_nil
    obtain ⟨ms₁, ms₂, -, hms₂, rfl⟩ := (@Chain.marks_append_eq_ok_iff [] [] _ _ _ _ hnested).1 hms
    obtain ⟨m, ms', hmark, -, rfl⟩ := Chain.marks_cons_eq_ok_iff.1 hms₂
    have hm : m = none := by
      cases m with
      | none => rfl
      | some op => simp at hops
    subst hm
    rw [List.getLast?_append, List.getLast?_singleton] at hmark
    cases u with
    | op o =>
      cases ho : o.binary? <;> simp [Chain.mark, ht, ho] at hmark
    | comma => cases hmark
    | define => cases hmark
    | closing b => cases hrest
    | opening b =>
      obtain ⟨⟨x, rfl⟩, rfl⟩ := eq_of_fits_opening hfits ht
      exact hcall x rfl rfl
    | number v => exact not_fits_isOperand ht rfl hfits
    | name x => exact not_fits_isOperand ht rfl hfits

/-- What a bracket opens in an operand that is not cut any more closes at the end. -/
theorem exists_inBrackets {b : Bracket} (h : IsChecked (ts ++ .opening b :: us))
    (hbinds : BindsAtLeast 6 (ts ++ .opening b :: us)) (hts : Nested ts) :
    ∃ inner, us = inner ++ [.closing b] ∧ Nested inner := by
  have hus : openAfter [b] us = some [] := h.nested.of_append hts
  obtain ⟨⟨inner, rest⟩, hu⟩ := Option.isSome_iff_exists.1
    (@isSome_untilClosing [] [] [] b us hus (Nat.le_refl 0))
  obtain ⟨rfl, hinner⟩ := @of_untilClosing [] [] [] b us inner rest hu hus
  have hinner : Nested inner := hinner
  rw [show ts ++ .opening b :: (inner ++ .closing b :: rest) =
    (ts ++ .opening b :: inner) ++ .closing b :: rest by simp] at h hbinds
  have hnested : Nested ((ts ++ .opening b :: inner) ++ [.closing b]) := by
    rw [List.append_assoc]
    exact hts.append (hinner.inBrackets b)
  obtain rfl := h.eq_nil hbinds hnested rfl (by simp)
  exact ⟨inner, rfl, hinner⟩

/-- Tokens that pass the check and are not cut any more have the form of an operand. -/
theorem hasOperandForm (h : IsChecked ts) (hbinds : BindsAtLeast 6 ts) : HasOperandForm ts := by
  cases ts with
  | nil => exact absurd rfl h.ne_nil
  | cons t ts =>
    cases t with
    | op o => exact .op o ts
    | number v =>
      obtain rfl := @eq_nil [] ts _ h hbinds rfl rfl (by simp)
      exact .number v
    | name x =>
      by_cases hcall : ts.head? = some (.opening .round)
      · obtain ⟨us, rfl⟩ := List.head?_eq_some_iff.1 hcall
        obtain ⟨inner, rfl, hinner⟩ := @exists_inBrackets [.name x] us _ h hbinds rfl
        exact .call x hinner
      · obtain rfl := @eq_nil [] ts _ h hbinds rfl rfl fun _ _ => hcall
        exact .name x
    | opening b =>
      obtain ⟨inner, rfl, hinner⟩ := @exists_inBrackets [] ts _ h hbinds rfl
      exact .brackets b hinner
    | closing b => cases h.nested
    | comma =>
      -- such tokens are not even marked
      obtain ⟨ms, hms, -⟩ := hbinds
      cases hms
    | define =>
      obtain ⟨ms, hms, -⟩ := hbinds
      cases hms

end IsChecked

/-! ### Marking operations -/

open Fault (IsOfReader)

/-- A token behind another one that it fits is marked, unless it is a comma or a `:=` where none may
stand. -/
theorem ends_mark {level : Int} {previous : Option Token} {t : Token}
    (h : ∀ p ∈ previous, Fits p t) :
    Ends (fun _ => True) IsOfReader (Chain.mark level previous t) := by
  cases t with
  | op o =>
    rw [Chain.mark]
    split
    · next hlevel =>
      -- only an operator with binary meaning fits behind an operand
      obtain ⟨p, hprevious, hp⟩ := (Option.any_eq_true _ _).1 hlevel.2
      obtain ⟨b, ho⟩ := Option.isSome_iff_exists.1 (isSome_binary?_of_fits (h p hprevious) hp)
      rw [ho]
      trivial
    · trivial
  | comma =>
    rw [Chain.mark]
    split
    · exact .strayComma
    · trivial
  | define => exact .strayDefine
  | _ => trivial

theorem ends_marks {level : Int} {previous : Option Token} {ts : List Token}
    (hprevious : ∀ p ∈ previous, ∀ t ∈ ts.head?, Fits p t) (h : ts.IsChain Fits) :
    Ends (fun _ => True) IsOfReader (Chain.marks level previous ts) := by
  induction ts generalizing level previous with
  | nil => trivial
  | cons t ts ih =>
    obtain ⟨hmeet, htail⟩ := List.isChain_cons.1 h
    have hmark := @ends_mark level previous t fun p hp => hprevious p hp t rfl
    have hmarks := @ih (level + t.nesting) (some t) (by simpa using hmeet) htail
    exact hmark.bind fun _ _ => hmarks.bind fun _ _ => trivial

theorem ends_chain {ts : List Token} (h : ts.IsChain Fits) :
    Ends (fun _ => True) IsOfReader (Chain.ofTokens ts) :=
  (ends_marks (by simp) h).bind fun _ _ => trivial

end Token

/-! ### The reader -/

namespace Activation

open Token (IsChecked BindsAtLeast Nested inBrackets elements)
open Fault (IsOfReader)

variable {read : Nat → List Token → Except Fault Term} {depth : Nat} {ts : List Token}

theorem ends_leftChain {left : Term} {links : List (BinaryOp × List Token)}
    (h : ∀ us ∈ links.map Prod.snd, Ends (fun _ => True) IsOfReader (read depth us)) :
    Ends (fun _ => True) IsOfReader (leftChain read depth left links) := by
  induction links generalizing left with
  | nil => trivial
  | cons link links ih =>
    obtain ⟨hus, hlinks⟩ := List.forall_mem_cons.1 h
    exact hus.bind fun right _ => ih hlinks

theorem ends_rightChain {first : List Token} {links : List (BinaryOp × List Token)}
    (h : ∀ us ∈ first :: links.map Prod.snd,
      Ends (fun _ => True) IsOfReader (read depth us)) :
    Ends (fun _ => True) IsOfReader (rightChain read depth first links) := by
  induction links generalizing first with
  | nil => exact h first List.mem_cons_self
  | cons link links ih =>
    obtain ⟨hfirst, hlinks⟩ := List.forall_mem_cons.1 h
    exact (ih hlinks).bind fun right _ => hfirst.bind fun left _ => trivial

theorem ends_items {items : List (List Token)}
    (h : ∀ item ∈ items, Ends (fun _ => True) IsOfReader (read depth item)) :
    Ends (fun _ => True) IsOfReader (items.mapM (read depth)) :=
  (Ends.mapM h).imp (fun _ _ => trivial) fun _ hfault => hfault

/-- The elements of a list in brackets are read as shorter checked tokens are. -/
theorem ends_elements {b : Bracket} {inner : List Token}
    (hread : ∀ us, us.length ≤ inner.length → IsChecked us →
      ∀ depth, Ends (fun _ => True) IsOfReader (read depth us))
    (hfits : (inBrackets b inner).IsChain Token.Fits) (hinner : Nested inner) :
    ∀ item ∈ elements inner, ∀ depth, Ends (fun _ => True) IsOfReader (read depth item) :=
  fun item hi => hread item (Token.length_le_of_mem_elements hi)
    (Token.isChecked_of_mem_elements hfits hinner item hi)

/-- So are the elements of the rows of a matrix, since a row is found in braces that are an element
themselves. -/
theorem ends_rows {inner : List Token} {rows : List (List (List Token))}
    (hread : ∀ us, us.length ≤ inner.length → IsChecked us →
      ∀ depth, Ends (fun _ => True) IsOfReader (read depth us))
    (hfits : (inBrackets .curly inner).IsChain Token.Fits) (hinner : Nested inner)
    (hrows : Token.matrixRows? (elements inner) = some rows) :
    ∀ row ∈ rows, ∀ item ∈ row, ∀ depth, Ends (fun _ => True) IsOfReader (read depth item) := by
  intro row hrow
  obtain ⟨-, hbraced⟩ := Token.matrixRows?_eq_some_iff.1 hrows
  obtain ⟨-, hmem⟩ := Token.map_inBrackets_of_braced?
    (fun _ => Token.nested_of_mem_elements hinner) hbraced
  obtain ⟨item, hi, inner', rfl, hinner', rfl⟩ := hmem row hrow
  -- the row in its braces passes the check, and so do its own elements
  have hitem := Token.isChecked_of_mem_elements hfits hinner _ hi
  have hlen := Token.length_le_of_mem_elements hi
  rw [inBrackets, List.length_cons, List.length_append] at hlen
  exact ends_elements (fun us hle => hread us (by omega)) hitem.fits hinner'

/-- An operand is read from checked tokens that are not cut any more. -/
theorem ends_operand
    (hread : ∀ us, us.length < ts.length → IsChecked us →
      ∀ depth, Ends (fun _ => True) IsOfReader (read depth us))
    (h : IsChecked ts) (hbinds : BindsAtLeast 6 ts) :
    Ends (fun _ => True) IsOfReader (operand read depth ts) := by
  cases h.hasOperandForm hbinds with
  | op o us =>
    rw [operand]
    split
    · next ho => exact .missingLeftOperand ho
    · exact (hread us (Nat.lt_succ_self _) h.tail_op _).map fun _ _ => trivial
  | number v => trivial
  | name x => trivial
  | @call x inner hinner =>
    have hitems := ends_elements (fun us hle => hread us (by simp [inBrackets]; omega))
      (List.isChain_cons.1 h.fits).2 hinner
    simp only [inBrackets, operand, Token.group?_append hinner]
    exact (ends_items fun item hi => hitems item hi _).map fun _ _ => trivial
  | @brackets b inner hinner =>
    have hshorter : ∀ us, us.length ≤ inner.length → IsChecked us →
        ∀ depth, Ends (fun _ => True) IsOfReader (read depth us) :=
      fun us hle => hread us (by simp [inBrackets]; omega)
    have hitems := ends_elements hshorter h.fits hinner
    cases b with
    | round =>
      simp only [inBrackets, operand, Token.group?_append hinner]
      split
      · exact .emptyParentheses
      · next item he => exact hitems item (he ▸ List.mem_cons_self) _
      · exact (ends_items fun item hi => hitems item hi _).map fun _ _ => trivial
    | curly =>
      simp only [inBrackets, operand, Token.group?_append hinner]
      split
      · next rows hrows =>
        have hentries := ends_rows hshorter h.fits hinner hrows
        have hmatrix := Ends.mapM fun row hrow => ends_items fun item hi =>
          hentries row hrow item hi (depth + 2)
        refine hmatrix.bind fun rows _ => ?_
        split
        · trivial
        · exact .raggedMatrix
      · exact (ends_items fun item hi => hitems item hi _).map fun _ _ => trivial

/-- **Which faults reading ends with.** Checked tokens are read into a term, or end with one of the
faults of the reader. -/
theorem ends_ofTokensAt (h : IsChecked ts) (depth : Nat) :
    Ends (fun _ => True) IsOfReader (Term.ofTokensAt depth ts) := by
  induction hn : ts.length using Nat.strongRecOn generalizing ts depth with
  | ind n ih =>
  subst hn
  -- the reader is called for tokens that pass the check again and are fewer
  have hread : ∀ us, us.length < ts.length → IsChecked us →
      ∀ depth, Ends (fun _ => True) IsOfReader (Term.ofTokensAt depth us) :=
    fun us hlt hus depth => ih _ hlt hus depth rfl
  rw [← expression_ofTokensAt]
  unfold expression
  split
  · exact .nesting
  · split
    · next hempty => exact absurd (List.isEmpty_iff.1 hempty) h.ne_nil
    · split
      · next hc => exact (Token.ends_chain h.fits).of_error hc
      · next hc => exact ends_operand hread h (Chain.bindsAtLeast_six_of_ofTokens hc)
      · next first link links hc =>
        have hoperands : ∀ us ∈ first :: (link :: links).map Prod.snd,
            ∀ depth, Ends (fun _ => True) IsOfReader (Term.ofTokensAt depth us) :=
          fun us hus => hread us (Chain.length_lt_of_mem_operands h.nested hc hus)
            (h.operands hc us hus)
        split
        · dsimp only
          split
          · exact .nesting
          · exact ends_rightChain fun us hus => hoperands us hus _
        · refine (hoperands first List.mem_cons_self depth).bind fun left _ => ?_
          exact ends_leftChain fun us hus => hoperands us (List.mem_cons_of_mem _ hus) depth

end Activation

/-! ### Texts -/

open Fault (IsOfText)

theorem Lexeme.ends_scan (cs : List Char) : Ends (fun _ => True) IsOfText (scan cs) := by
  induction cs using scan.induct with
  | case1 =>
    rw [scan]
    trivial
  | case2 c rest hc ih =>
    rw [scan, if_pos hc]
    exact ih
  | case3 c rest hc hnone =>
    rw [scan_of_next?_eq_none hc hnone]
    exact .unreadable _
  | _ c rest hc l tail hnext _ _ _ ih =>
    rw [scan_of_next? hnext]
    exact ih.map fun _ _ => trivial

namespace Token

theorem ends_checkNeighbours (ts : List Token) :
    Ends (fun _ => True) IsOfText (checkNeighbours ts) := by
  fun_induction checkNeighbours ts with
  | case1 => exact .misplaced _
  | case2 _ _ _ _ ih => exact ih
  | case3 => trivial

theorem ends_checkBrackets (position : Nat) (opened : List Bracket) (ts : List Token) :
    Ends (fun _ => True) IsOfText (checkBrackets position opened ts) := by
  induction ts generalizing position opened with
  | nil =>
    cases opened with
    | nil => trivial
    | cons b opened => exact .bracketMismatch
  | cons t ts ih =>
    cases t with
    | closing c =>
      cases opened with
      | nil => exact .surplusClosing position
      | cons b opened =>
        rw [checkBrackets]
        split
        · exact ih _ _
        · exact .bracketMismatch
    | _ => simpa only [checkBrackets] using ih (position + 1) _

theorem ends_checkEnd (ts : List Token) : Ends (fun _ => True) IsOfText (checkEnd ts) := by
  unfold checkEnd
  split
  · exact .operatorAtEndOfText
  · trivial

theorem ends_check (ts : List Token) : Ends (fun _ => True) IsOfText (check ts) := by
  cases ts with
  | nil => exact .emptyText
  | cons t ts =>
    exact (ends_checkNeighbours (t :: ts)).bind fun _ _ =>
      (ends_checkBrackets 0 [] (t :: ts)).bind fun _ _ => ends_checkEnd (t :: ts)

/-- The tokens of a text pass the check, if it has any. -/
theorem ends_ofText (text : List Char) (known : List String) :
    Ends IsChecked IsOfText (ofText text known) := by
  cases h : ofText text known with
  | ok ts =>
    obtain ⟨-, -, hcheck, -⟩ := exists_of_ofText h
    exact (check_eq_ok_iff ts).1 hcheck
  | error fault =>
    have hends : Ends (fun _ => True) IsOfText (ofText text known) := by
      unfold ofText
      split
      · exact .nonAscii
      · exact (Lexeme.ends_scan text).bind fun ls _ =>
          (ends_check (ofLexemes known ls)).bind fun _ _ => trivial
    exact hends.of_error h

end Token

namespace Term

theorem ends_ofExpression (text : List Char) (known : List String) :
    Ends (fun _ => True) IsOfText (ofExpression text known) :=
  (Token.ends_ofText text known).bind fun _ hts =>
    (Activation.ends_ofTokensAt hts 0).imp (fun _ => id) fun _ hfault => .reader hfault

/-- **Which faults a text ends with.** Whatever the text and the known names are, the text is read
into a term, or its fault is one of those that texts end with. -/
theorem isOfText_of_parse {text : String} {known : List String} {fault : Fault}
    (h : parse text known = .error fault) : fault.IsOfText := by
  have hends : Ends (fun _ => True) IsOfText (parse text known) := by
    unfold parse
    split
    · exact ends_ofExpression _ known
    · split
      · exact .invalidHead _
      · exact (ends_ofExpression _ known).map fun _ _ => trivial
      · exact (ends_ofExpression _ _).bind fun _ _ => trivial
  exact hends.of_error h

end Term

end Abacus
