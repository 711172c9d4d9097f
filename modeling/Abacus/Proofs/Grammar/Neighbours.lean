import Abacus.Proofs.Grammar.Chains
import Mathlib.Data.List.Chain

/-!
# Derivable tokens pass the check

Before a term is built its tokens are checked for misplaced neighbours, for brackets that do not
match, and for an operator at the end (`Token.check_eq_ok_iff`). None of these occurs in tokens that
the grammar derives (`Derives.check_eq_ok`). The invariant is `Token.WellPlaced`: what a phrase
starts and ends with, and that no two neighbours in it are misplaced. That is enough to put phrases
together, since which neighbours meet there depends on the first and last tokens of the phrases
only.
-/

namespace Abacus

namespace Token

/-! ### Neighbours -/

/-- Two tokens that may stand side by side. -/
def Fits (left right : Token) : Prop := misplacement? left right = none

/-- No two tokens that fit break any of the rules. -/
theorem not_fits_of_occurs {left right : Token} (m : Misplacement) (h : m.occurs left right) :
    ¬ Fits left right := by
  intro hfits
  have hall : m ∈ Misplacement.all := by cases m <;> decide
  exact List.find?_eq_none.1 hfits m hall h

/-- Whether an operand can start with a token. -/
def startsOperand (t : Token) : Bool :=
  t.isOperand || t.isOpening || t.operator?.any fun o => o.unary?.isSome

/-- Whether an operand has to follow a token, or at least something that can start one. -/
def awaitsOperand (t : Token) : Bool := t.operator?.isSome || t.isOpening || t.isComma

/-- Whether a token ends an element of a list. -/
def endsElement (t : Token) : Bool := t.isClosing || t.isComma

theorem operator?_eq_none_of_endsOperand {t : Token} (h : t.endsOperand) : t.operator? = none := by
  cases t <;> first | rfl | cases h

/-- Nothing is wrong with the start of an operand where one is awaited. -/
theorem fits_of_awaitsOperand {left right : Token} (hl : left.awaitsOperand)
    (hr : right.startsOperand) : Fits left right := by
  cases left <;> cases right <;>
    simp_all [Fits, misplacement?, Misplacement.all, Misplacement.occurs, awaitsOperand,
      startsOperand, isOperand, isOpening, isClosing, isComma, isDefine, operator?, endsOperand,
      startsElement]

/-- Nothing is wrong with a comma or a closing bracket behind an operand. -/
theorem fits_of_endsElement {left right : Token} (hl : left.endsOperand)
    (hr : right.endsElement) : Fits left right := by
  cases left <;> cases right <;>
    simp_all [Fits, misplacement?, Misplacement.all, Misplacement.occurs, endsElement, isOperand,
      isOpening, isClosing, isComma, isDefine, operator?, endsOperand, startsElement]

/-- Nor with a binary operator. -/
theorem fits_op {left : Token} {o : Operator} {op : BinaryOp} (hl : left.endsOperand)
    (ho : o.binary? = some op) : Fits left (.op o) := by
  cases left <;>
    simp_all [Fits, misplacement?, Misplacement.all, Misplacement.occurs, isOperand, isOpening,
      isClosing, isComma, isDefine, operator?, endsOperand, startsElement]

theorem fits_name_opening (x : String) : Fits (.name x) (.opening .round) := rfl

theorem fits_opening_closing (b c : Bracket) : Fits (.opening b) (.closing c) := rfl

/-- Neighbours pass the check if and only if each two of them fit. -/
theorem checkNeighbours_eq_ok_iff (ts : List Token) :
    checkNeighbours ts = .ok () ↔ ts.IsChain Fits := by
  fun_induction checkNeighbours ts with
  | case1 left right rest m hm =>
    simp [List.isChain_cons_cons, Fits, hm]
  | case2 left right rest hm ih =>
    simp [List.isChain_cons_cons, Fits, hm, ih]
  | case3 ts hts =>
    -- fewer than two tokens
    match ts, hts with
    | [], _ => simp
    | [t], _ => simp
    | left :: right :: rest, hts => exact absurd rfl (hts left right rest)

/-! ### The check -/

/-- Tokens that pass the check. -/
structure IsChecked (ts : List Token) : Prop where
  ne_nil : ts ≠ []
  fits : ts.IsChain Fits
  nested : Nested ts
  last : ∀ t ∈ ts.getLast?, t.operator? = none

theorem checkEnd_eq_ok_iff (ts : List Token) :
    checkEnd ts = .ok () ↔ ∀ t ∈ ts.getLast?, t.operator? = none := by
  unfold checkEnd
  cases ts.getLast? with
  | none => simp
  | some t => cases t <;> simp [operator?]

theorem check_eq_ok_iff (ts : List Token) : check ts = .ok () ↔ IsChecked ts := by
  cases ts with
  | nil => exact ⟨nofun, fun h => absurd rfl h.ne_nil⟩
  | cons t ts =>
    have hcheck : check (t :: ts) = .ok () ↔ checkNeighbours (t :: ts) = .ok () ∧
        checkBrackets 0 [] (t :: ts) = .ok () ∧ checkEnd (t :: ts) = .ok () := by
      change (checkNeighbours (t :: ts) >>= fun _ => checkBrackets 0 [] (t :: ts) >>= fun _ =>
        checkEnd (t :: ts)) = .ok () ↔ _
      simp only [bind_eq_ok_iff]
      exact ⟨fun ⟨_, h, _, h', h''⟩ => ⟨h, h', h''⟩, fun ⟨h, h', h''⟩ => ⟨(), h, (), h', h''⟩⟩
    rw [hcheck, checkNeighbours_eq_ok_iff, checkBrackets_eq_ok_iff, checkEnd_eq_ok_iff]
    exact ⟨fun h => ⟨List.cons_ne_nil _ _, h.1, h.2.1, h.2.2⟩, fun h => ⟨h.fits, h.nested, h.last⟩⟩

/-! ### Phrases -/

/-- Tokens as they stand in a phrase. -/
structure WellPlaced (ts : List Token) : Prop where
  starts : ∃ t, ts.head? = some t ∧ t.startsOperand
  ends : ∃ t, ts.getLast? = some t ∧ t.endsOperand
  fits : ts.IsChain Fits
  nested : Nested ts
  noDefine : ∀ t ∈ ts, t.isDefine = false

namespace WellPlaced

variable {ts us : List Token}

theorem ne_nil (h : WellPlaced ts) : ts ≠ [] := by
  rintro rfl
  obtain ⟨t, ht, -⟩ := h.starts
  cases ht

theorem last (h : WellPlaced ts) : ts.getLast?.any endsOperand := by
  obtain ⟨t, ht, he⟩ := h.ends
  rw [ht]
  exact he

/-- A phrase behind a token that awaits it. -/
theorem isChain_cons (h : WellPlaced ts) {t : Token} (ht : t.awaitsOperand) :
    (t :: ts).IsChain Fits := by
  refine List.isChain_cons.2 ⟨fun u hu => ?_, h.fits⟩
  obtain ⟨u', hu', hstart⟩ := h.starts
  obtain rfl : u' = u := Option.some.inj (hu'.symm.trans hu)
  exact fits_of_awaitsOperand ht hstart

/-- A phrase in front of tokens that fit to its end. -/
theorem isChain_append (h : WellPlaced ts) {t : Token} (hus : (t :: us).IsChain Fits)
    (ht : ∀ u, endsOperand u → Fits u t) : (ts ++ t :: us).IsChain Fits := by
  refine List.isChain_append.2 ⟨h.fits, hus, fun u hu v hv => ?_⟩
  obtain ⟨u', hu', hend⟩ := h.ends
  obtain rfl : u' = u := Option.some.inj (hu'.symm.trans hu)
  obtain rfl : t = v := by simpa using hv
  exact ht _ hend

theorem head?_append (h : WellPlaced ts) (us : List Token) : (ts ++ us).head? = ts.head? := by
  rw [List.head?_append_of_ne_nil _ h.ne_nil]

theorem getLast?_append (h : WellPlaced us) (ts : List Token) :
    (ts ++ us).getLast? = us.getLast? := by
  obtain ⟨t, ht, -⟩ := h.ends
  rw [List.getLast?_append, ht]
  rfl

/-- Two phrases with a token between them that fits to the first and awaits the second. -/
theorem append (hts : WellPlaced ts) (hus : WellPlaced us) {t : Token}
    (hfits : ∀ u, endsOperand u → Fits u t) (hawaits : t.awaitsOperand)
    (hnested : Nested (t :: us)) (hdefine : t.isDefine = false) : WellPlaced (ts ++ t :: us) where
  starts := by
    rw [hts.head?_append]
    exact hts.starts
  ends := by
    rw [List.append_cons, hus.getLast?_append]
    exact hus.ends
  fits := hts.isChain_append (hus.isChain_cons hawaits) hfits
  nested := hts.nested.append hnested
  noDefine := by
    intro u hu
    simp only [List.mem_append, List.mem_cons] at hu
    rcases hu with hu | rfl | hu
    exacts [hts.noDefine u hu, hdefine, hus.noDefine u hu]

/-- Two phrases with an operation between them. -/
theorem append_op (hts : WellPlaced ts) (hus : WellPlaced us) {o : Operator} {op : BinaryOp}
    (ho : o.binary? = some op) : WellPlaced (ts ++ .op o :: us) :=
  hts.append hus (fun _ hu => fits_op hu ho) rfl (hus.nested.op o) rfl

/-- A phrase behind a unary operator. -/
theorem cons_op (h : WellPlaced ts) {o : Operator} {op : UnaryOp} (ho : o.unary? = some op) :
    WellPlaced (.op o :: ts) where
  starts := ⟨.op o, rfl, by simp [startsOperand, isOperand, isOpening, operator?, ho]⟩
  ends := by
    rw [← List.singleton_append, h.getLast?_append]
    exact h.ends
  fits := h.isChain_cons rfl
  nested := h.nested.op o
  noDefine := List.forall_mem_cons.2 ⟨rfl, h.noDefine⟩

theorem singleton {t : Token} (h : t.isOperand) : WellPlaced [t] := by
  cases t with
  | number v => exact ⟨⟨_, rfl, rfl⟩, ⟨_, rfl, rfl⟩, .singleton _, rfl, by simp [isDefine]⟩
  | name x => exact ⟨⟨_, rfl, rfl⟩, ⟨_, rfl, rfl⟩, .singleton _, rfl, by simp [isDefine]⟩
  | _ => cases h

/-- Phrases with commas between them. -/
theorem separated {items : List (List Token)} (hne : items ≠ [])
    (h : ∀ item ∈ items, WellPlaced item) : WellPlaced (separated items) := by
  induction items with
  | nil => exact absurd rfl hne
  | cons item items ih =>
    have hitem := h item List.mem_cons_self
    cases items with
    | nil => exact hitem
    | cons next items =>
      have hrest := ih (List.cons_ne_nil _ _) fun i hi => h i (List.mem_cons_of_mem _ hi)
      rw [separated_cons_cons]
      exact hitem.append hrest (fun _ hu => fits_of_endsElement hu rfl) rfl hrest.nested.comma rfl

/-- What stands between the brackets of a list, which may be empty. -/
theorem separated_or_nil {items : List (List Token)} (h : ∀ item ∈ items, WellPlaced item) :
    Token.separated items = [] ∨ WellPlaced (Token.separated items) := by
  by_cases hne : items = []
  · subst hne
    exact .inl rfl
  · exact .inr (separated hne h)

/-- Nothing or a phrase in brackets. -/
theorem inBrackets (h : ts = [] ∨ WellPlaced ts) (b : Bracket) : WellPlaced (inBrackets b ts) where
  starts := ⟨_, rfl, rfl⟩
  ends := ⟨closing b, by simp [Token.inBrackets, List.getLast?_cons], rfl⟩
  fits := by
    rcases h with rfl | h
    · -- an empty list
      exact List.isChain_cons_cons.2 ⟨fits_opening_closing b b, .singleton _⟩
    · refine List.isChain_cons.2 ⟨fun u hu => ?_, ?_⟩
      · rw [h.head?_append] at hu
        exact (List.isChain_cons.1 (h.isChain_cons rfl)).1 u hu
      · exact h.isChain_append (.singleton _) fun _ hu => fits_of_endsElement hu rfl
  nested := by
    rcases h with rfl | h
    · exact nested_nil.inBrackets b
    · exact h.nested.inBrackets b
  noDefine := by
    intro t ht
    simp only [Token.inBrackets, List.mem_cons, List.mem_append, List.not_mem_nil, or_false] at ht
    rcases ht with rfl | ht | rfl
    · rfl
    · rcases h with rfl | h
      · cases ht
      · exact h.noDefine t ht
    · rfl

/-- A call. -/
theorem cons_name (h : ts = [] ∨ WellPlaced ts) (x : String) :
    WellPlaced (.name x :: Token.inBrackets .round ts) := by
  have hb := inBrackets h .round
  refine ⟨⟨_, rfl, rfl⟩, ?_, ?_, hb.nested, List.forall_mem_cons.2 ⟨rfl, hb.noDefine⟩⟩
  · rw [← List.singleton_append, hb.getLast?_append]
    exact hb.ends
  · exact List.isChain_cons_cons.2 ⟨fits_name_opening x, hb.fits⟩

end WellPlaced

/-! ### Brackets hide operations -/

/-- Nothing between two brackets that match is marked. -/
theorem marks_inBrackets_of_nested {ts : List Token} (hnested : Nested ts)
    (hdefine : ∀ t ∈ ts, t.isDefine = false) (b : Bracket) (previous : Option Token) :
    Chain.marks 0 previous (inBrackets b ts) = .ok ((inBrackets b ts).map (·, none)) := by
  have hinner : Chain.marks 1 (some (opening b)) ts = .ok (ts.map (·, none)) :=
    Chain.marks_inside hnested hdefine (by decide) _
  have hopen : openAfter [b] ts = some [b] := openAfter_frame hnested [b]
  have hclose : ∀ previous : Option Token,
      Chain.marks 1 previous [closing b] = .ok [(closing b, none)] := fun _ => rfl
  -- the closing bracket is marked with whatever token in front of it
  have hrest : Chain.marks 1 (some (opening b)) (ts ++ [closing b]) =
      .ok ((ts ++ [closing b]).map (·, none)) := by
    rw [List.map_append]
    exact (@Chain.marks_append_eq_ok_iff [b] [b] _ _ _ _ hopen).2
      ⟨_, _, hinner, hclose _, rfl⟩
  exact Chain.marks_cons_eq_ok_iff.2 ⟨none, _, rfl, hrest, rfl⟩

theorem marks_inBrackets {ts : List Token} (h : ts = [] ∨ WellPlaced ts) (b : Bracket)
    (previous : Option Token) :
    Chain.marks 0 previous (inBrackets b ts) = .ok ((inBrackets b ts).map (·, none)) := by
  rcases h with rfl | h
  · exact marks_inBrackets_of_nested nested_nil nofun b previous
  · exact marks_inBrackets_of_nested h.nested h.noDefine b previous

theorem bindsAtLeast_inBrackets {ts : List Token} (h : ts = [] ∨ WellPlaced ts) (b : Bracket)
    (p : Nat) : BindsAtLeast p (inBrackets b ts) := by
  refine ⟨_, marks_inBrackets h b none, ?_⟩
  rw [Chain.operations_map_none]
  exact nofun

theorem bindsAtLeast_cons_name {ts : List Token} (h : ts = [] ∨ WellPlaced ts) (x : String)
    (p : Nat) : BindsAtLeast p (.name x :: inBrackets .round ts) := by
  refine ⟨_, Chain.marks_cons_eq_ok_iff.2 ⟨none, _, rfl, marks_inBrackets h .round _, rfl⟩, ?_⟩
  rw [Chain.operations_cons_none, Chain.operations_map_none]
  exact nofun

end Token

open Token (WellPlaced BindsAtLeast)

/-- What a phrase looks like, and how tightly its operations bind. -/
theorem Derives.wellPlaced {p : Nat} {ts : List Token} {t : Term} (h : Derives p ts t) :
    WellPlaced ts ∧ BindsAtLeast p ts := by
  have hall : ∀ {items : List (List Token)} {es : List Term},
      List.Forall₂ (fun ts t => ∃ _ : Derives 1 ts t, WellPlaced ts ∧ BindsAtLeast 1 ts) items es →
      ∀ item ∈ items, WellPlaced item := by
    intro items es h item hi
    obtain ⟨-, -, -, hw, -⟩ := Token.exists_of_mem_left h hi
    exact hw
  induction h using Derives.induction with
  | lift _ ih => exact ⟨ih.1, ih.2.mono (Nat.le_succ _)⟩
  | left hop hp hleft _ _ ihs iht =>
    -- the operation has the priority of the level, and its operands bind at least as tightly
    subst hp
    refine ⟨ihs.1.append_op iht.1 hop, ?_⟩
    exact Chain.bindsAtLeast_append_op ihs.1.nested ihs.1.last hop (Nat.le_refl _) ihs.2
      (iht.2.mono (Nat.le_succ _))
  | right hop hp _ _ ihs iht =>
    refine ⟨ihs.1.append_op iht.1 hop, ?_⟩
    exact Chain.bindsAtLeast_append_op ihs.1.nested ihs.1.last hop (Nat.le_of_eq hp.symm)
      (ihs.2.of_six 5) iht.2
  | unary hop _ ih => exact ⟨ih.1.cons_op hop, BindsAtLeast.cons_op_iff.2 ih.2⟩
  | number v => exact ⟨.singleton rfl, [(.number v, none)], rfl, nofun⟩
  | name x => exact ⟨.singleton rfl, [(.name x, none)], rfl, nofun⟩
  | call x _ ih =>
    have hinner := WellPlaced.separated_or_nil (hall ih)
    exact ⟨.cons_name hinner x, Token.bindsAtLeast_cons_name hinner x _⟩
  | group _ ih => exact ⟨.inBrackets (.inr ih.1) _, Token.bindsAtLeast_inBrackets (.inr ih.1) _ _⟩
  | list _ _ ih =>
    have hinner := WellPlaced.separated_or_nil (hall ih)
    exact ⟨.inBrackets hinner _, Token.bindsAtLeast_inBrackets hinner _ _⟩
  | vector _ _ ih =>
    have hinner := WellPlaced.separated_or_nil (hall ih)
    exact ⟨.inBrackets hinner _, Token.bindsAtLeast_inBrackets hinner _ _⟩
  | @matrix rows _ _ _ _ _ ih =>
    -- each row in braces is a phrase, and these are the items of the list
    have hrows : ∀ item ∈ rows.map fun row => Token.inBrackets .curly (Token.separated row),
        WellPlaced item := by
      intro item hi
      obtain ⟨row, hrow, rfl⟩ := List.mem_map.1 hi
      obtain ⟨_, -, hitems⟩ := Token.exists_of_mem_left ih hrow
      exact .inBrackets (WellPlaced.separated_or_nil (hall hitems)) _
    have hinner := WellPlaced.separated_or_nil hrows
    exact ⟨.inBrackets hinner _, Token.bindsAtLeast_inBrackets hinner _ _⟩

/-- **Derivable tokens pass the check.** -/
theorem Derives.check_eq_ok {p : Nat} {ts : List Token} {t : Term} (h : Derives p ts t) :
    Token.check ts = .ok () := by
  obtain ⟨hw, -⟩ := h.wellPlaced
  refine (Token.check_eq_ok_iff ts).2 ⟨hw.ne_nil, hw.fits, hw.nested, fun last hlast => ?_⟩
  -- the end of an operand is no operator
  obtain ⟨last', hlast', hends⟩ := hw.ends
  obtain rfl : last' = last := Option.some.inj (hlast'.symm.trans hlast)
  exact Token.operator?_eq_none_of_endsOperand hends

end Abacus
