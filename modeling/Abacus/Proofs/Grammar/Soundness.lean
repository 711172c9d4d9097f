import Abacus.Proofs.Grammar.Reader

/-!
# What is read is derivable

The term that `Term.ofTokensAt` reads from tokens with matching brackets is one that the grammar
gives them (`Term.derives_of_ofTokensAt`). The induction is on the number of tokens. Its statement
speaks of all levels at once: where every operation outside of brackets binds at least as tightly as
`p`, the tokens are a phrase of level `p`. The pieces of a chain then are phrases of the next level,
because `Chain.cut_spec` says that their operations bind more tightly than those at which the chain
is cut.
-/

namespace Abacus

namespace Chain

theorem IsPiece.nested {p : Nat} {previous : Option Token} {ts : List Token}
    (h : IsPiece p [] previous ts) : Token.Nested ts := h.1

theorem IsPiece.bindsAtLeast {p : Nat} {ts : List Token} (h : IsPiece p [] none ts) :
    Token.BindsAtLeast (p + 1) ts := h.2

end Chain

namespace Token

theorem length_le_of_mem {items : List (List Token)} {item : List Token} (h : item ∈ items) :
    item.length ≤ (separated items).length := by
  induction items with
  | nil => cases h
  | cons first items ih =>
    cases items with
    | nil =>
      rw [List.mem_singleton.1 h]
      exact Nat.le_refl _
    | cons next items =>
      rw [separated_cons_cons, List.length_append, List.length_cons]
      rcases List.mem_cons.1 h with rfl | h
      · omega
      · have := ih h
        omega

theorem length_le_of_mem_elements {ts item : List Token} (h : item ∈ elements ts) :
    item.length ≤ ts.length := by
  have := length_le_of_mem h
  rwa [separated_elements] at this

/-- The rows of a matrix, each put into braces again, are the elements in which they were found. -/
theorem map_inBrackets_of_braced? {items : List (List Token)} {rows : List (List (List Token))}
    (hnested : ∀ item ∈ items, Nested item)
    (h : List.Forall₂ (fun item row => braced? item = some row) items rows) :
    items = rows.map (fun row => inBrackets .curly (separated row)) ∧
      ∀ row ∈ rows, ∃ item ∈ items, ∃ inner, item = inBrackets .curly inner ∧ Nested inner ∧
        row = elements inner := by
  induction h with
  | nil => exact ⟨rfl, nofun⟩
  | @cons item row items rows hrow _ ih =>
    obtain ⟨inner, rfl, hinner, rfl⟩ :=
      (braced?_eq_some_iff (hnested item List.mem_cons_self)).1 hrow
    obtain ⟨hitems, hmem⟩ := ih fun i hi => hnested i (List.mem_cons_of_mem _ hi)
    constructor
    · -- what stands in the braces is put together again from its elements
      rw [List.map_cons, separated_elements, ← hitems]
    · refine List.forall_mem_cons.2 ⟨⟨_, List.mem_cons_self, inner, rfl, hinner, rfl⟩, ?_⟩
      intro row hr
      obtain ⟨item, hi, hrest⟩ := hmem row hr
      exact ⟨item, List.mem_cons_of_mem _ hi, hrest⟩

end Token

namespace Term

open Token (Nested BindsAtLeast inBrackets separated elements)

variable {depth : Nat} {ts us : List Token}

/-- Tokens with matching brackets are read into terms that the grammar gives them. -/
def ReadsDerivable (ts : List Token) : Prop :=
  ∀ {depth p : Nat} {t : Term}, Nested ts → BindsAtLeast p ts → p ≤ 6 →
    ofTokensAt depth ts = .ok t → Derives p ts t

/-- Tokens that are read are not too deep, and some, and their chain is found. -/
theorem exists_chain_of_ofTokensAt {t : Term} (h : ofTokensAt depth ts = .ok t) :
    depth ≤ maxNesting ∧ ts ≠ [] ∧ ∃ c, Chain.ofTokens ts = .ok c := by
  rw [ofTokensAt] at h
  split at h
  · cases h
  · next hd =>
    split at h
    · cases h
    · next hne =>
      refine ⟨Nat.not_lt.1 hd, by simpa using hne, ?_⟩
      split at h
      · cases h
      · next hc => exact ⟨_, hc⟩
      · next hc => exact ⟨_, hc⟩

/-- Every operation binds at least as tightly as those of level 1. -/
theorem bindsAtLeast_one_of_ofTokensAt {t : Term} (h : ofTokensAt depth ts = .ok t) :
    BindsAtLeast 1 ts := by
  obtain ⟨-, -, c, hc⟩ := exists_chain_of_ofTokensAt h
  obtain ⟨ms, hms, -⟩ := bind_eq_ok_iff.1 hc
  exact ⟨ms, hms, fun op _ => op.one_le_priority⟩

/-! ### Lists -/

theorem forall₂_of_ofItems {items : List (List Token)} {es : List Term}
    (hsound : ∀ item ∈ items, ReadsDerivable item) (hnested : ∀ item ∈ items, Nested item)
    (h : ofItems depth items = .ok es) : List.Forall₂ (Derives 1) items es := by
  induction items generalizing es with
  | nil =>
    rw [ofItems_nil] at h
    cases h
    exact .nil
  | cons item items ih =>
    simp only [ofItems_cons, bind_eq_ok_iff, pure_eq_ok_iff] at h
    obtain ⟨t, ht, ts, hts, rfl⟩ := h
    refine .cons ?_ ?_
    · exact hsound item List.mem_cons_self (hnested item List.mem_cons_self)
        (bindsAtLeast_one_of_ofTokensAt ht) (by omega) ht
    · exact ih (fun i hi => hsound i (List.mem_cons_of_mem _ hi))
        (fun i hi => hnested i (List.mem_cons_of_mem _ hi)) hts

theorem forall₂_of_ofRowItems {rows : List (List (List Token))} {es : List (List Term)}
    (hsound : ∀ row ∈ rows, ∀ item ∈ row, ReadsDerivable item)
    (hnested : ∀ row ∈ rows, ∀ item ∈ row, Nested item)
    (h : ofRowItems depth rows = .ok es) : List.Forall₂ (List.Forall₂ (Derives 1)) rows es := by
  induction rows generalizing es with
  | nil =>
    rw [ofRowItems_nil] at h
    cases h
    exact .nil
  | cons row rows ih =>
    simp only [ofRowItems_cons, bind_eq_ok_iff, pure_eq_ok_iff] at h
    obtain ⟨r, hr, rs, hrs, rfl⟩ := h
    refine .cons ?_ ?_
    · exact forall₂_of_ofItems (hsound row List.mem_cons_self) (hnested row List.mem_cons_self) hr
    · exact ih (fun r hr => hsound r (List.mem_cons_of_mem _ hr))
        (fun r hr => hnested r (List.mem_cons_of_mem _ hr)) hrs

/-! ### Operands -/

/-- The operand of a list in brackets: its elements are shorter and have matching brackets. -/
theorem elements_of_group? {b : Bracket} {inner : List Token}
    (hg : Token.group? ts = some inner) (hnested : Nested (.opening b :: ts)) :
    .opening b :: ts = inBrackets b (separated (elements inner)) ∧
      (∀ item ∈ elements inner, Nested item) ∧
      ∀ item ∈ elements inner, item.length < (Token.opening b :: ts).length := by
  obtain ⟨rfl, hinner⟩ := Token.of_group? hg hnested
  refine ⟨?_, fun _ => Token.nested_of_mem_elements hinner, ?_⟩
  · rw [Token.separated_elements]
    rfl
  · intro item hi
    have := Token.length_le_of_mem_elements hi
    rw [List.length_cons, List.length_append]
    omega

/-- What is read as an operand is a phrase of level 6, if all shorter tokens are read as the grammar
says. -/
theorem derives_of_operandRead {t : Term} (ih : ∀ us, us.length < ts.length → ReadsDerivable us)
    (hnested : Nested ts) (hbinds : BindsAtLeast 6 ts) (h : OperandRead depth ts t) :
    Derives 6 ts t := by
  cases h with
  | unary ho ht =>
    exact .unary ho (ih _ (by simp) hnested (BindsAtLeast.cons_op_iff.1 hbinds) (by omega) ht)
  | number v => exact .lift (.number v)
  | name x => exact .lift (.name x)
  | call x hg h =>
    obtain ⟨htokens, hitems, hlen⟩ := elements_of_group? hg hnested
    rw [htokens]
    -- the name in front of the list makes its elements shorter still
    exact .lift (.call x (forall₂_of_ofItems
      (fun item hi => ih item (Nat.lt_succ_of_lt (hlen item hi))) hitems h))
  | @group ts inner item t hg he h =>
    obtain ⟨htokens, hitems, hlen⟩ := elements_of_group? hg hnested
    rw [he] at htokens hitems hlen
    have hitem := hitems item List.mem_cons_self
    have hshort := hlen item List.mem_cons_self
    rw [htokens]
    exact .lift (.group (ih item hshort hitem (bindsAtLeast_one_of_ofTokensAt h) (by omega) h))
  | list hg he h =>
    obtain ⟨htokens, hitems, hlen⟩ := elements_of_group? hg hnested
    rw [htokens]
    exact .lift (.list he (forall₂_of_ofItems (fun item hi => ih item (hlen item hi)) hitems h))
  | vector hg hm h =>
    obtain ⟨htokens, hitems, hlen⟩ := elements_of_group? hg hnested
    rw [htokens]
    exact .lift (.vector ((Token.matrixRows?_eq_none_iff hitems).1 hm)
      (forall₂_of_ofItems (fun item hi => ih item (hlen item hi)) hitems h))
  | matrix hg hm h hrect =>
    obtain ⟨htokens, hitems, hlen⟩ := elements_of_group? hg hnested
    obtain ⟨hne, hrows⟩ := Token.matrixRows?_eq_some_iff.1 hm
    obtain ⟨hmap, hmem⟩ := Token.map_inBrackets_of_braced? hitems hrows
    obtain ⟨columns, hcolumns⟩ := (isRectangular_iff _).1 hrect
    rw [htokens, hmap]
    refine .lift (.matrix ?_ hcolumns (forall₂_of_ofRowItems ?_ ?_ h))
    · rintro rfl
      exact hne hmap
    · -- an entry is shorter than the row in braces, and that is shorter than the tokens
      intro row hrow item hi
      obtain ⟨outer, houter, inner, rfl, -, rfl⟩ := hmem row hrow
      refine ih item (Nat.lt_of_le_of_lt ?_ (hlen _ houter))
      have hle := Token.length_le_of_mem_elements hi
      rw [inBrackets, List.length_cons, List.length_append]
      omega
    · intro row hrow item hi
      obtain ⟨-, -, inner, -, hinner, rfl⟩ := hmem row hrow
      exact Token.nested_of_mem_elements hinner hi

/-! ### Chains -/

/-- A chain that groups from the left continues a phrase of its priority. -/
theorem derives_of_ofLeftChain {p : Nat} (hp : p ≤ 4)
    {links : List (BinaryOp × List Token)} {left t : Term} (hleft : Derives p ts left)
    (hlinks : ∀ link ∈ links, link.1.priority = p ∧
      ∀ {t}, ofTokensAt depth link.2 = .ok t → Derives (p + 1) link.2 t)
    (h : ofLeftChain depth left links = .ok t) : Derives p (ts ++ Chain.linkTokens links) t := by
  induction links generalizing ts left with
  | nil =>
    rw [ofLeftChain_nil] at h
    cases h
    simpa [Chain.linkTokens] using hleft
  | cons link links ih =>
    obtain ⟨op, us⟩ := link
    obtain ⟨hop, hus⟩ := hlinks (op, us) List.mem_cons_self
    rw [ofLeftChain_cons] at h
    obtain ⟨right, hright, h⟩ := bind_eq_ok_iff.1 h
    -- what has been read so far becomes the left operand of the next operation
    have hstep := Derives.left op.binary?_operator hop hp hleft (hus hright)
    have hrest := ih hstep (fun l hl => hlinks l (List.mem_cons_of_mem _ hl)) h
    simpa [Chain.linkTokens] using hrest

/-- A chain that groups from the right is a power of its first operand and the rest. -/
theorem derives_of_ofRightChain {links : List (BinaryOp × List Token)} {t : Term}
    (hfirst : ∀ {t}, ofTokensAt depth ts = .ok t → Derives 6 ts t)
    (hlinks : ∀ link ∈ links, link.1.priority = 5 ∧
      ∀ {t}, ofTokensAt depth link.2 = .ok t → Derives 6 link.2 t)
    (h : ofRightChain depth ts links = .ok t) : Derives 5 (ts ++ Chain.linkTokens links) t := by
  induction links generalizing ts t with
  | nil =>
    -- the last operand of a chain of powers
    rw [ofRightChain_nil] at h
    simpa [Chain.linkTokens] using Derives.lift (hfirst h)
  | cons link links ih =>
    obtain ⟨op, us⟩ := link
    obtain ⟨hop, hus⟩ := hlinks (op, us) List.mem_cons_self
    simp only [ofRightChain_cons, bind_eq_ok_iff, pure_eq_ok_iff] at h
    obtain ⟨right, hright, left, hleft, rfl⟩ := h
    have hrest := ih hus (fun l hl => hlinks l (List.mem_cons_of_mem _ hl)) hright
    exact .right op.binary?_operator hop (hfirst hleft) hrest

/-- **Soundness.** Tokens with matching brackets in which every operation binds at least as tightly
as `p` are read into a term that the grammar gives them at level `p`. -/
theorem derives_of_ofTokensAt (ts : List Token) : ReadsDerivable ts := by
  induction hn : ts.length using Nat.strongRecOn generalizing ts with
  | ind n ih =>
  subst hn
  have ih : ∀ us, us.length < ts.length → ReadsDerivable us := fun us hlt => ih _ hlt us rfl
  intro depth p t hnested hbinds hp h
  obtain ⟨hd, hne, ⟨first, links⟩, hc⟩ := exists_chain_of_ofTokensAt h
  obtain ⟨ms, hms, hops⟩ := hbinds
  cases links with
  | nil =>
    -- the tokens are one operand
    rw [ofTokensAt_eq_ofOperand hd hne hc] at h
    have hsix : BindsAtLeast 6 ts := Chain.bindsAtLeast_six_of_ofTokens hc
    exact (derives_of_operandRead ih hnested hsix (operandRead_of_ofOperand h)).mono hp
  | cons link links =>
    -- the pieces of the chain are shorter, and phrases of the next level
    obtain ⟨htokens, hfirst, hlinks, hlow⟩ := Chain.pieces_of_ofTokens hnested hc
    refine Derives.mono ?_ (hlow p ⟨ms, hms, hops⟩)
    have hlength : ts.length = first.length + (Chain.linkTokens (link :: links)).length := by
      rw [← List.length_append, ← htokens]
    have hpieces : ∀ depth, ∀ l ∈ link :: links, l.1.priority = link.1.priority ∧
        ∀ {t}, ofTokensAt depth l.2 = .ok t → Derives (link.1.priority + 1) l.2 t := by
      intro depth l hl
      obtain ⟨hpri, hpiece⟩ := hlinks l hl
      have := Chain.length_lt_of_mem_links hl
      have := link.1.priority_le_five
      exact ⟨hpri, ih l.2 (by omega) hpiece.nested hpiece.bindsAtLeast (by omega)⟩
    have hpos : link.2.length < (Chain.linkTokens (link :: links)).length :=
      Chain.length_lt_of_mem_links List.mem_cons_self
    have hleft : ∀ {depth t}, ofTokensAt depth first = .ok t →
        Derives (link.1.priority + 1) first t := by
      intro depth t
      have := link.1.priority_le_five
      exact ih first (by omega) hfirst.nested hfirst.bindsAtLeast (by omega)
    rw [htokens]
    cases hassoc : link.1.isRightAssoc with
    | false =>
      -- only powers group from the right
      have hfour : link.1.priority ≤ 4 := by
        have := link.1.priority_le_five
        have := mt link.1.isRightAssoc_iff.2 (by rw [hassoc]; decide)
        omega
      rw [ofTokensAt_eq_ofLeftChain hd hne hc hassoc] at h
      obtain ⟨left, hl, h⟩ := bind_eq_ok_iff.1 h
      exact derives_of_ofLeftChain hfour (.lift (hleft hl)) (hpieces _) h
    | true =>
      have hfive := link.1.isRightAssoc_iff.1 hassoc
      rw [ofTokensAt_eq_ofRightChain hd hne hc hassoc] at h
      split at h
      · cases h
      · rw [hfive] at hleft hpieces ⊢
        exact derives_of_ofRightChain hleft (hpieces _) h

end Term

end Abacus
