import Abacus.Proofs.Grammar.Neighbours
import Abacus.Proofs.Grammar.Soundness

/-!
# What is derivable is read

Tokens that the grammar derives are read into the derived term, unless they are nested too deep
(`Derives.upToNesting`). The induction follows the grammar: `Term.ofTokensAt_append_left` and
`Term.ofTokensAt_append_right` undo one step of a chain, and an operand is read by the equation of
its form.
-/

namespace Abacus

open Token (WellPlaced BindsAtLeast Nested inBrackets separated elements IsBraceList)

/-! ### Reading up to the limit on nesting -/

/-- A computation that yields a result, or reports that the limit on nesting is exceeded. -/
def UpToNesting {α : Type} (e : Except Fault α) (a : α) : Prop := e = .ok a ∨ e = .error .nesting

namespace UpToNesting

variable {α β : Type} {e : Except Fault α} {a : α}

theorem bind {f : α → Except Fault β} {b : β} (h : UpToNesting e a) (hf : UpToNesting (f a) b) :
    UpToNesting (e >>= f) b := by
  rcases h with rfl | rfl
  · exact hf
  · exact .inr rfl

theorem map (h : UpToNesting e a) (f : α → β) : UpToNesting (f <$> e) (f a) := by
  rcases h with rfl | rfl
  · exact .inl rfl
  · exact .inr rfl

end UpToNesting

namespace Term

variable {depth : Nat}

theorem upToNesting_ofItems {items : List (List Token)} {es : List Term}
    (h : List.Forall₂ (fun ts t => UpToNesting (ofTokensAt depth ts) t) items es) :
    UpToNesting (ofItems depth items) es := by
  induction h with
  | nil => exact .inl ofItems_nil
  | cons ht _ ih =>
    rw [ofItems_cons]
    exact ht.bind (ih.bind (.inl rfl))

theorem upToNesting_ofRowItems {rows : List (List (List Token))} {es : List (List Term)}
    (h : List.Forall₂ (List.Forall₂ fun ts t => UpToNesting (ofTokensAt depth ts) t) rows es) :
    UpToNesting (ofRowItems depth rows) es := by
  induction h with
  | nil => exact .inl ofRowItems_nil
  | cons hrow _ ih =>
    rw [ofRowItems_cons]
    exact (upToNesting_ofItems hrow).bind (ih.bind (.inl rfl))

end Term

/-! ### Lists of phrases -/

/-- Items that look like phrases are found again between their commas. -/
theorem Token.elements_separated_of_wellPlaced {items : List (List Token)}
    (h : ∀ item ∈ items, WellPlaced item ∧ BindsAtLeast 1 item) :
    Nested (separated items) ∧ elements (separated items) = items := by
  have hnested : ∀ item ∈ items, Nested item := fun item hi => (h item hi).1.nested
  refine ⟨Nested.separated hnested, Token.elements_separated ?_ hnested ?_⟩
  · intro item hi
    exact (h item hi).1.ne_nil
  · intro item hi
    exact (h item hi).2.isElement

namespace Derives

variable {items : List (List Token)} {es : List Term}

theorem wellPlaced_of_mem (h : List.Forall₂ (Derives 1) items es) {item : List Token}
    (hi : item ∈ items) : WellPlaced item ∧ BindsAtLeast 1 item := by
  obtain ⟨_, -, hd⟩ := Token.exists_of_mem_left h hi
  exact hd.wellPlaced

theorem nested_separated (h : List.Forall₂ (Derives 1) items es) : Nested (separated items) :=
  (Token.elements_separated_of_wellPlaced fun _ => wellPlaced_of_mem h).1

/-- The elements of a list of phrases are found again. -/
theorem elements_separated (h : List.Forall₂ (Derives 1) items es) :
    elements (separated items) = items :=
  (Token.elements_separated_of_wellPlaced fun _ => wellPlaced_of_mem h).2

/-- Phrases that are not all lists in braces are no rows of a matrix. -/
theorem matrixRows?_eq_none (h : List.Forall₂ (Derives 1) items es)
    (hitems : items = [] ∨ ∃ item ∈ items, ¬ IsBraceList item) :
    Token.matrixRows? items = none := by
  refine (Token.matrixRows?_eq_none_iff fun item hi => ?_).2 hitems
  exact (wellPlaced_of_mem h hi).1.nested

/-- The rows of a matrix are found in its elements. -/
theorem matrixRows?_map {rows : List (List (List Token))} {es : List (List Term)}
    (hrows : rows ≠ []) (h : List.Forall₂ (List.Forall₂ (Derives 1)) rows es) :
    Token.matrixRows? (rows.map fun row => inBrackets .curly (separated row)) = some rows := by
  refine Token.matrixRows?_eq_some_iff.2 ⟨by simpa using hrows, ?_⟩
  clear hrows
  induction h with
  | nil => exact .nil
  | cons hrow _ ih =>
    have hnested := nested_separated hrow
    refine .cons ?_ ih
    exact (Token.braced?_eq_some_iff (hnested.inBrackets .curly)).2
      ⟨_, rfl, hnested, (elements_separated hrow).symm⟩

/-- Lists in braces with commas between them fall into these lists again. -/
theorem elements_map {rows : List (List (List Token))} {es : List (List Term)}
    (h : List.Forall₂ (List.Forall₂ (Derives 1)) rows es) :
    Nested (separated (rows.map fun row => inBrackets .curly (separated row))) ∧
      elements (separated (rows.map fun row => inBrackets .curly (separated row))) =
        rows.map fun row => inBrackets .curly (separated row) := by
  refine Token.elements_separated_of_wellPlaced fun item hi => ?_
  obtain ⟨row, hrow, rfl⟩ := List.mem_map.1 hi
  obtain ⟨_, -, hitems⟩ := Token.exists_of_mem_left h hrow
  have hinner := WellPlaced.separated_or_nil fun _ hi => (wellPlaced_of_mem hitems hi).1
  exact ⟨.inBrackets hinner _, Token.bindsAtLeast_inBrackets hinner _ _⟩

/-! ### Completeness -/

/-- Phrases without operations between operands are read as operands. -/
theorem upToNesting_of_ofOperand {p depth : Nat} {ts : List Token} {t : Term} (h : Derives p ts t)
    (hp : 6 ≤ p) (hread : UpToNesting (Term.ofOperand depth ts) t) :
    UpToNesting (Term.ofTokensAt depth ts) t := by
  obtain ⟨hw, hb⟩ := h.wellPlaced
  by_cases hd : maxNesting < depth
  · exact .inr (Term.ofTokensAt_of_lt hd ts)
  · have hchain := Chain.ofTokens_of_bindsAtLeast_six (hb.mono hp)
    rw [Term.ofTokensAt_eq_ofOperand (Nat.not_lt.1 hd) hw.ne_nil hchain]
    exact hread

/-- **Completeness.** Derivable tokens are read into the derived term, unless they are nested too
deep. -/
theorem upToNesting {p : Nat} {ts : List Token} {t : Term} (h : Derives p ts t) :
    ∀ depth, UpToNesting (Term.ofTokensAt depth ts) t := by
  have hread : ∀ {depth : Nat} {items : List (List Token)} {es : List Term},
      List.Forall₂ (fun ts t => ∃ _ : Derives 1 ts t,
        ∀ depth, UpToNesting (Term.ofTokensAt depth ts) t) items es →
      List.Forall₂ (fun ts t => UpToNesting (Term.ofTokensAt depth ts) t) items es :=
    fun h => h.imp fun _ _ ⟨_, hr⟩ => hr _
  induction h using Derives.induction with
  | lift _ ih => exact ih
  | left hop hp hleft hs ht ihs iht =>
    intro depth
    subst hp
    obtain ⟨hsw, hsb⟩ := hs.wellPlaced
    rw [Term.ofTokensAt_append_left hsw.nested hsw.last hop hleft hsb ht.wellPlaced.2]
    exact (ihs depth).bind ((iht depth).bind (.inl rfl))
  | right hop hp hs ht ihs iht =>
    intro depth
    obtain ⟨hsw, hsb⟩ := hs.wellPlaced
    obtain ⟨htw, htb⟩ := ht.wellPlaced
    -- how deep the base is read does not matter here
    obtain ⟨first, links, -, heq⟩ :=
      Term.ofTokensAt_append_right hsw.nested hsw.last hop hp hsb htw.ne_nil htb
    rw [heq]
    split
    · exact .inr rfl
    · exact (iht _).bind ((ihs _).bind (.inl rfl))
  | unary hop ht ih =>
    intro depth
    refine (Derives.unary hop ht).upToNesting_of_ofOperand (by decide) ?_
    rw [Term.ofOperand_unary hop]
    exact (ih _).map _
  | number v =>
    intro depth
    exact (Derives.number v).upToNesting_of_ofOperand (by decide) (.inl (Term.ofOperand_number v))
  | name x =>
    intro depth
    exact (Derives.name x).upToNesting_of_ofOperand (by decide) (.inl (Term.ofOperand_name x))
  | call x h ih =>
    intro depth
    refine (Derives.call x h).upToNesting_of_ofOperand (by decide) ?_
    have hg := Token.group?_append (nested_separated h) .round
    rw [inBrackets, Term.ofOperand_call x hg, elements_separated h]
    exact (Term.upToNesting_ofItems (hread ih)).map _
  | @group ts t h ih =>
    intro depth
    refine (Derives.group h).upToNesting_of_ofOperand (by decide) ?_
    have hg := Token.group?_append h.wellPlaced.1.nested .round
    have he : elements ts = [ts] := elements_separated (.cons h .nil)
    rw [inBrackets, Term.ofOperand_group hg he]
    exact ih _
  | list hlen h ih =>
    intro depth
    refine (Derives.list hlen h).upToNesting_of_ofOperand (by decide) ?_
    have hg := Token.group?_append (nested_separated h) .round
    have he := elements_separated h
    rw [inBrackets, Term.ofOperand_list hg (he.symm ▸ hlen), he]
    exact (Term.upToNesting_ofItems (hread ih)).map _
  | vector hitems h ih =>
    intro depth
    refine (Derives.vector hitems h).upToNesting_of_ofOperand (by decide) ?_
    have hg := Token.group?_append (nested_separated h) .curly
    have he := elements_separated h
    have hm := matrixRows?_eq_none h hitems
    rw [inBrackets, Term.ofOperand_vector hg (he.symm ▸ hm), he]
    exact (Term.upToNesting_ofItems (hread ih)).map _
  | matrix hrows hcolumns h ih =>
    intro depth
    refine (Derives.matrix hrows hcolumns h).upToNesting_of_ofOperand (by decide) ?_
    obtain ⟨hnested, he⟩ := elements_map h
    have hg := Token.group?_append hnested .curly
    have hm := matrixRows?_map hrows h
    rw [inBrackets, Term.ofOperand_matrix hg (he.symm ▸ hm)]
    refine (Term.upToNesting_ofRowItems (ih.imp fun _ _ hrow => hread hrow)).bind ?_
    rw [if_pos ((Term.isRectangular_iff _).2 ⟨_, hcolumns⟩)]
    exact .inl rfl

end Derives

end Abacus
