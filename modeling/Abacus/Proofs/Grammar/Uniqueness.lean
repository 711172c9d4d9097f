import Abacus.Proofs.Grammar.Completeness

/-!
# The grammar is unambiguous

The limit on nesting keeps the reader from deciding that tokens derive only one term, so that is
shown of the grammar itself (`Derives.unique`). Where the last operation of a derivation stands is
determined by the tokens (`Chain.split_unique`), and so is the form of an operand.

What the operands of an operation are allowed to be is said once, for both ways to group, by the
levels of its two sides (`BinaryOp.leftLevel` and `BinaryOp.rightLevel`).
-/

namespace Abacus

open Token (BindsAtLeast Nested inBrackets separated elements IsBraceList)

/-! ### The sides of an operation -/

namespace BinaryOp

/-- The level of the phrase on the left of an operation. -/
def leftLevel (op : BinaryOp) : Nat := if op.isRightAssoc then op.priority + 1 else op.priority

/-- The level of the phrase on the right of an operation. -/
def rightLevel (op : BinaryOp) : Nat := if op.isRightAssoc then op.priority else op.priority + 1

/-- Chains group from the left. -/
theorem levels_of_le_four {op : BinaryOp} (h : op.priority ≤ 4) :
    op.leftLevel = op.priority ∧ op.rightLevel = op.priority + 1 := by
  have hright : ¬ op.isRightAssoc := by
    rw [isRightAssoc_iff]
    omega
  exact ⟨by simp [leftLevel, hright], by simp [rightLevel, hright]⟩

/-- Powers group from the right. -/
theorem levels_of_eq_five {op : BinaryOp} (h : op.priority = 5) :
    op.leftLevel = 6 ∧ op.rightLevel = 5 := by
  have hright := op.isRightAssoc_iff.2 h
  exact ⟨by simp [leftLevel, hright, h], by simp [rightLevel, hright, h]⟩

theorem levels (op : BinaryOp) :
    (op.priority ≤ 4 ∧ op.leftLevel = op.priority ∧ op.rightLevel = op.priority + 1) ∨
      (op.priority = 5 ∧ op.leftLevel = 6 ∧ op.rightLevel = 5) := by
  rcases Nat.lt_or_ge op.priority 5 with h | h
  · exact .inl ⟨Nat.le_of_lt_succ h, levels_of_le_four (Nat.le_of_lt_succ h)⟩
  · have hfive := Nat.le_antisymm op.priority_le_five h
    exact .inr ⟨hfive, levels_of_eq_five hfive⟩

end BinaryOp

namespace Derives

variable {p : Nat} {ts us : List Token} {t : Term}

/-- An operation between phrases of the levels of its two sides. -/
theorem binary {o : Operator} {op : BinaryOp} {s t : Term} (ho : o.binary? = some op)
    (hs : Derives op.leftLevel ts s) (ht : Derives op.rightLevel us t) :
    Derives op.priority (ts ++ .op o :: us) (.binary op s t) := by
  rcases op.levels with ⟨hp, hl, hr⟩ | ⟨hp, hl, hr⟩
  · exact .left ho rfl hp (hl ▸ hs) (hr ▸ ht)
  · rw [hp]
    exact .right ho hp (hl ▸ hs) (hr ▸ ht)

end Derives

/-! ### The last operation -/

namespace Chain

variable {ts us ts' us' : List Token} {o o' : Operator} {op op' : BinaryOp}

/-- Phrases around an operation, as it may stand last in a derivation. -/
structure IsSplit (ts : List Token) (o : Operator) (op : BinaryOp) (us : List Token) : Prop where
  nested : Nested ts
  last : ts.getLast?.any Token.endsOperand
  meaning : o.binary? = some op
  left : BindsAtLeast op.leftLevel ts
  right : BindsAtLeast op.rightLevel us

/-- The marks of a split: all operations bind as the sides of its operation ask. -/
theorem IsSplit.exists_marks (h : IsSplit ts o op us) :
    ∃ ms ns, marks 0 none (ts ++ .op o :: us) = .ok (ms ++ (.op o, some op) :: ns) ∧
      ms.map Prod.fst = ts ∧ ns.map Prod.fst = us ∧
      (∀ op' ∈ operations ms, op.leftLevel ≤ op'.priority) ∧
      ∀ op' ∈ operations ns, op.rightLevel ≤ op'.priority := by
  obtain ⟨ms, hms, hmsops⟩ := h.left
  obtain ⟨ns, hns, hnsops⟩ := h.right
  exact ⟨ms, ns, marks_append_op h.nested h.last h.meaning hms hns, map_fst_of_marks hms,
    map_fst_of_marks hns, hmsops, hnsops⟩

/-- Of two operations one cannot stand last in front of the other and the other way round. -/
theorem not_leftLevel_le_and_rightLevel_le (op op' : BinaryOp) :
    ¬ (op'.leftLevel ≤ op.priority ∧ op.rightLevel ≤ op'.priority) := by
  have := op.levels
  have := op'.levels
  omega

/-- **The last operation is determined by the tokens.** -/
theorem split_unique (h : IsSplit ts o op us) (h' : IsSplit ts' o' op' us')
    (heq : ts ++ .op o :: us = ts' ++ .op o' :: us') :
    ts = ts' ∧ o = o' ∧ op = op' ∧ us = us' := by
  obtain ⟨ms, ns, hmarks, rfl, rfl, hms, hns⟩ := h.exists_marks
  obtain ⟨ms', ns', hmarks', rfl, rfl, hms', hns'⟩ := h'.exists_marks
  rw [← heq, hmarks] at hmarks'
  rcases List.append_eq_append_iff.1 (Except.ok.inj hmarks') with ⟨as, rfl, has⟩ | ⟨as, rfl, has⟩
  · cases as with
    | nil =>
      -- both operations stand at the same place
      obtain ⟨⟨ho, rfl⟩, rfl⟩ : ((Token.op o = .op o') ∧ op = op') ∧ ns = ns' := by simpa using has
      cases ho
      simp
    | cons a as =>
      -- the first operation stands in front of the second
      obtain ⟨rfl, rfl⟩ := List.cons.inj has
      refine absurd ⟨hms' op ?_, hns op' ?_⟩ (not_leftLevel_le_and_rightLevel_le op op')
      · simp
      · simp
  · cases as with
    | nil =>
      obtain ⟨⟨ho, rfl⟩, rfl⟩ : ((Token.op o' = .op o) ∧ op' = op) ∧ ns' = ns := by simpa using has
      cases ho
      simp
    | cons a as =>
      -- the second operation stands in front of the first
      obtain ⟨rfl, rfl⟩ := List.cons.inj has
      refine absurd ⟨hms op' ?_, hns' op ?_⟩ (not_leftLevel_le_and_rightLevel_le op' op)
      · simp
      · simp

/-- Without operations there is no last one. -/
theorem IsSplit.not_bindsAtLeast_six (h : IsSplit ts o op us) :
    ¬ BindsAtLeast 6 (ts ++ .op o :: us) := by
  intro hsix
  obtain ⟨ms, ns, hmarks, -⟩ := h.exists_marks
  obtain ⟨ms', hms', hops⟩ := hsix.operations_eq_nil
  obtain rfl := Except.ok.inj (hmarks.symm.trans hms')
  simp at hops

end Chain

/-! ### The forms of a phrase -/

namespace Derives

variable {p : Nat} {ts us : List Token} {s t : Term}

theorem isSplit {o : Operator} {op : BinaryOp} (ho : o.binary? = some op)
    (hs : Derives op.leftLevel ts s) (ht : Derives op.rightLevel us t) :
    Chain.IsSplit ts o op us :=
  ⟨hs.wellPlaced.1.nested, hs.wellPlaced.1.last, ho, hs.wellPlaced.2, ht.wellPlaced.2⟩

/-- A phrase is an operation between two phrases, or an operand. -/
theorem binary_or_operand (h : Derives p ts t) :
    (∃ xs o op ys s u, ts = xs ++ .op o :: ys ∧ t = .binary op s u ∧ o.binary? = some op ∧
      Derives op.leftLevel xs s ∧ Derives op.rightLevel ys u) ∨ Derives 6 ts t := by
  induction h using Derives.induction with
  | lift _ ih => exact ih
  | @left p xs ys o op s u hop hp hleft hs hu =>
    -- the level is the priority, as the levels of the two sides are counted from it
    subst hp
    have hl := BinaryOp.levels_of_le_four hleft
    exact .inl ⟨xs, o, op, ys, s, u, rfl, rfl, hop, hl.1 ▸ hs, hl.2 ▸ hu⟩
  | @right xs ys o op s u hop hp hs hu =>
    have hl := BinaryOp.levels_of_eq_five hp
    exact .inl ⟨xs, o, op, ys, s, u, rfl, rfl, hop, hl.1 ▸ hs, hl.2 ▸ hu⟩
  | unary hop ht => exact .inr (.unary hop ht)
  | number v => exact .inr (.lift (.number v))
  | name x => exact .inr (.lift (.name x))
  | call x h => exact .inr (.lift (.call x h))
  | group h => exact .inr (.lift (.group h))
  | list hlen h => exact .inr (.lift (.list hlen h))
  | vector hitems h => exact .inr (.lift (.vector hitems h))
  | matrix hrows hcolumns h => exact .inr (.lift (.matrix hrows hcolumns h))

/-- No phrase is of a tighter level than the operands. -/
theorem level_le_seven (h : Derives p ts t) : p ≤ 7 := by
  induction h using Derives.induction with
  | lift _ ih => omega
  | left _ _ hleft => omega
  | _ => decide

/-- What follows a unary operator is its operand. -/
theorem exists_of_cons_op {o : Operator} (h : Derives 6 (.op o :: us) t) :
    ∃ op s, o.unary? = some op ∧ Derives 6 us s ∧ t = .unary op s := by
  generalize hts : Token.op o :: us = ts at h
  cases h with
  | lift h =>
    cases h with
    | lift h => exact absurd h.level_le_seven (by decide)
    | _ =>
      -- no operand of the last level starts with an operator
      first | cases hts | omega
  | left _ _ hleft => omega
  | unary hop ht =>
    cases hts
    exact ⟨_, _, hop, ht, rfl⟩

/-- An operand without a unary operator in front is one of the last level. -/
theorem seven_of_six (h : Derives 6 ts t) (hts : ∀ o us, ts ≠ .op o :: us) : Derives 7 ts t := by
  cases h with
  | lift h => exact h
  | left _ _ hleft => omega
  | unary => exact absurd rfl (hts _ _)

/-- A phrase without operations between operands is an operand. -/
theorem six_of_bindsAtLeast (h : Derives p ts t) (hb : BindsAtLeast 6 ts) : Derives 6 ts t := by
  rcases h.binary_or_operand with ⟨xs, o, op, ys, s, u, rfl, -, ho, hs, hu⟩ | h
  · exact absurd hb (isSplit ho hs hu).not_bindsAtLeast_six
  · exact h

/-! ### The forms of an operand -/

section Forms

variable {x : String}

theorem eq_of_number {v : Value} (h : Derives 7 [.number v] t) : t = .literal v := by
  generalize hts : [Token.number v] = ts at h
  cases h with
  | lift h => exact absurd h.level_le_seven (by decide)
  | left _ _ hleft => omega
  | number v => cases hts; rfl
  | _ => cases hts

theorem eq_of_name (h : Derives 7 [.name x] t) : t = .var x := by
  generalize hts : [Token.name x] = ts at h
  cases h with
  | lift h => exact absurd h.level_le_seven (by decide)
  | left _ _ hleft => omega
  | name x => cases hts; rfl
  | _ => cases hts

theorem exists_of_call (h : Derives 7 (.name x :: inBrackets .round us) t) :
    ∃ items arguments, us = separated items ∧ List.Forall₂ (Derives 1) items arguments ∧
      t = .call x arguments := by
  generalize hts : Token.name x :: inBrackets .round us = ts at h
  cases h with
  | lift h => exact absurd h.level_le_seven (by decide)
  | left _ _ hleft => omega
  | call y h =>
    obtain ⟨⟨⟩, hus⟩ := List.cons.inj hts
    exact ⟨_, _, Token.inBrackets_inj.1 hus, h, rfl⟩
  | _ => cases hts

theorem exists_of_round (h : Derives 7 (inBrackets .round us) t) :
    Derives 1 us t ∨ ∃ items es, 2 ≤ items.length ∧ us = separated items ∧
      List.Forall₂ (Derives 1) items es ∧ t = .ofElements es := by
  generalize hts : inBrackets .round us = ts at h
  cases h with
  | lift h => exact absurd h.level_le_seven (by decide)
  | left _ _ hleft => omega
  | group h => exact .inl (Token.inBrackets_inj.1 hts ▸ h)
  | list hlen h => exact .inr ⟨_, _, hlen, Token.inBrackets_inj.1 hts, h, rfl⟩
  | _ => cases hts

theorem exists_of_curly (h : Derives 7 (inBrackets .curly us) t) :
    (∃ items es, (items = [] ∨ ∃ item ∈ items, ¬ IsBraceList item) ∧ us = separated items ∧
        List.Forall₂ (Derives 1) items es ∧ t = .ofElements es) ∨
      ∃ rows es, rows ≠ [] ∧
        us = separated (rows.map fun row => inBrackets .curly (separated row)) ∧
        List.Forall₂ (List.Forall₂ (Derives 1)) rows es ∧ t = .ofRows es := by
  generalize hts : inBrackets .curly us = ts at h
  cases h with
  | lift h => exact absurd h.level_le_seven (by decide)
  | left _ _ hleft => omega
  | vector hitems h => exact .inl ⟨_, _, hitems, Token.inBrackets_inj.1 hts, h, rfl⟩
  | matrix hrows hcolumns h => exact .inr ⟨_, _, hrows, Token.inBrackets_inj.1 hts, h, rfl⟩
  | _ => cases hts

end Forms

/-- What one list in braces stands for is a vector or a matrix. -/
theorem exists_of_isBraceList (h : Derives p ts t) (hts : IsBraceList ts) :
    (∃ es, t = .ofElements es) ∨ ∃ rows, t = .ofRows rows := by
  obtain ⟨inner, rfl, hnested⟩ := hts
  have hdefine : ∀ u ∈ inner, u.isDefine = false := by
    intro u hu
    exact h.wellPlaced.1.noDefine u (by simp [inBrackets, hu])
  have hmarks := Token.marks_inBrackets_of_nested hnested hdefine .curly none
  have hb : BindsAtLeast 6 (inBrackets .curly inner) := by
    refine ⟨_, hmarks, ?_⟩
    rw [Chain.operations_map_none]
    exact List.forall_mem_nil _
  have hseven := seven_of_six (h.six_of_bindsAtLeast hb) fun o us => by simp [inBrackets]
  rcases exists_of_curly hseven with
    ⟨_, es, -, -, -, rfl⟩ | ⟨_, rows, -, -, -, rfl⟩
  · exact .inl ⟨es, rfl⟩
  · exact .inr ⟨rows, rfl⟩

/-! ### Uniqueness -/

/-- Lists of phrases with the same tokens are the same. -/
theorem items_inj {items items' : List (List Token)} {es es' : List Term}
    (h : List.Forall₂ (Derives 1) items es) (h' : List.Forall₂ (Derives 1) items' es')
    (heq : separated items = separated items') : items = items' := by
  rw [← elements_separated h, heq, elements_separated h']

/-- Lists of lists in braces with the same tokens are the same. -/
theorem rows_inj {rows rows' : List (List (List Token))} {es es' : List (List Term)}
    (h : List.Forall₂ (List.Forall₂ (Derives 1)) rows es)
    (h' : List.Forall₂ (List.Forall₂ (Derives 1)) rows' es')
    (heq : separated (rows.map fun row => inBrackets .curly (separated row)) =
      separated (rows'.map fun row => inBrackets .curly (separated row))) : rows = rows' := by
  by_cases hne : rows = [] ∨ rows' = []
  · -- no rows have no elements, and so neither have the other rows
    have hmap := congrArg elements heq
    rw [(elements_map h).2, (elements_map h').2] at hmap
    rcases hne with rfl | rfl
    · simpa using hmap
    · simpa using hmap
  · -- the elements are the same lists in braces, and these have the same rows
    rw [not_or] at hne
    have hmap := congrArg elements heq
    rw [(elements_map h).2, (elements_map h').2] at hmap
    have hrows := matrixRows?_map hne.1 h
    rw [hmap, matrixRows?_map hne.2 h'] at hrows
    exact (Option.some.inj hrows).symm

/-- A list of elements that are not all lists in braces has other tokens than a matrix. -/
theorem vector_ne_matrix {items : List (List Token)} {es : List Term}
    {rows : List (List (List Token))} {es' : List (List Term)}
    (hitems : items = [] ∨ ∃ item ∈ items, ¬ IsBraceList item)
    (h : List.Forall₂ (Derives 1) items es) (hrows : rows ≠ [])
    (h' : List.Forall₂ (List.Forall₂ (Derives 1)) rows es') :
    separated items ≠ separated (rows.map fun row => inBrackets .curly (separated row)) := by
  intro heq
  have hmap := congrArg elements heq
  rw [elements_separated h, (elements_map h').2] at hmap
  have hnone := matrixRows?_eq_none h hitems
  rw [hmap, matrixRows?_map hrows h'] at hnone
  cases hnone

theorem eq_of_forall₂ {α β : Type} {R S : α → β → Prop} {as : List α} {bs bs' : List β}
    (h : List.Forall₂ R as bs) (h' : List.Forall₂ S as bs')
    (hunique : ∀ a b b', R a b → S a b' → b = b') : bs = bs' := by
  induction h generalizing bs' with
  | nil => cases h'; rfl
  | cons hr _ ih =>
    cases h' with
    | cons hs h' => rw [hunique _ _ _ hr hs, ih h']

/-- An operation between phrases is the last one of each derivation of its tokens. -/
theorem exists_of_binary {q : Nat} {o : Operator} {op : BinaryOp} {t' : Term}
    (h : Chain.IsSplit ts o op us) (h' : Derives q (ts ++ .op o :: us) t') :
    ∃ s u, Derives op.leftLevel ts s ∧ Derives op.rightLevel us u ∧ t' = .binary op s u := by
  rcases h'.binary_or_operand with ⟨xs, o', op', ys, s, u, heq, rfl, ho, hs, hu⟩ | h'
  · obtain ⟨rfl, rfl, rfl, rfl⟩ := Chain.split_unique h (isSplit ho hs hu) heq
    exact ⟨s, u, hs, hu, rfl⟩
  · exact absurd h'.wellPlaced.2 h.not_bindsAtLeast_six

/-- A phrase of the last level is one in each derivation, unless it starts with an operator. -/
theorem seven_of_seven {q : Nat} {t' : Term} (h : Derives 7 ts t) (h' : Derives q ts t')
    (hts : ∀ o us, ts ≠ .op o :: us) : Derives 7 ts t' :=
  seven_of_six (six_of_bindsAtLeast h' (h.wellPlaced.2.mono (by decide))) hts

/-- **The grammar is unambiguous.** Tokens derive at most one term, at whatever levels. -/
theorem unique {q : Nat} {t' : Term} (h : Derives p ts t) (h' : Derives q ts t') : t = t' := by
  have hitems : ∀ {items : List (List Token)} {es es' : List Term},
      List.Forall₂ (fun ts t => ∃ _ : Derives 1 ts t, ∀ {q : Nat} {t' : Term},
        Derives q ts t' → t = t') items es → List.Forall₂ (Derives 1) items es' → es = es' :=
    fun h h' => eq_of_forall₂ h h' fun _ _ _ ⟨_, ih⟩ h' => ih h'
  induction h using Derives.induction generalizing q t' with
  | lift _ ih => exact ih h'
  | left hop hp hleft hs ht ihs iht =>
    subst hp
    have hl := BinaryOp.levels_of_le_four hleft
    obtain ⟨s', u', hs', hu', rfl⟩ := exists_of_binary (isSplit hop (hl.1 ▸ hs) (hl.2 ▸ ht)) h'
    rw [ihs hs', iht hu']
  | right hop hp hs ht ihs iht =>
    have hl := BinaryOp.levels_of_eq_five hp
    obtain ⟨s', u', hs', hu', rfl⟩ := exists_of_binary (isSplit hop (hl.1 ▸ hs) (hl.2 ▸ ht)) h'
    rw [ihs hs', iht hu']
  | unary hop ht ih =>
    -- a phrase without operations that starts with an operator is a unary operation
    have hsix := six_of_bindsAtLeast h' (Derives.unary hop ht).wellPlaced.2
    obtain ⟨op', s, hop', hs, rfl⟩ := exists_of_cons_op hsix
    obtain rfl := Option.some.inj (hop.symm.trans hop')
    rw [ih hs]
  | number v => exact (eq_of_number (seven_of_seven (.number v) h' nofun)).symm
  | name x => exact (eq_of_name (seven_of_seven (.name x) h' nofun)).symm
  | call x h ih =>
    -- the tokens in parentheses fall into the same arguments
    obtain ⟨items', es', hus, hes', rfl⟩ := exists_of_call (seven_of_seven (.call x h) h' nofun)
    obtain rfl := items_inj h hes' hus
    rw [hitems ih hes']
  | group h ih =>
    rcases exists_of_round (seven_of_seven (.group h) h' nofun) with
      h' | ⟨items', es', hlen, hus, hes', rfl⟩
    · exact ih h'
    · -- a group has one element
      obtain rfl := items_inj (.cons h .nil) hes' hus
      simp at hlen
  | list hlen h ih =>
    rcases exists_of_round (seven_of_seven (.list hlen h) h' nofun) with
      h' | ⟨items', es', -, hus, hes', rfl⟩
    · -- neither has a list in parentheses only one
      rw [items_inj h (.cons h' .nil) rfl] at hlen
      simp at hlen
    · obtain rfl := items_inj h hes' hus
      rw [hitems ih hes']
  | vector hvector h ih =>
    rcases exists_of_curly (seven_of_seven (.vector hvector h) h' nofun) with
      ⟨items', es', -, hus, hes', rfl⟩ | ⟨rows, es', hrows, hus, hes', rfl⟩
    · obtain rfl := items_inj h hes' hus
      rw [hitems ih hes']
    · -- a vector has other tokens than a matrix
      exact absurd hus (vector_ne_matrix hvector h hrows hes')
  | matrix hrows hcolumns h ih =>
    rcases exists_of_curly (seven_of_seven (.matrix hrows hcolumns h) h' nofun) with
      ⟨items', es', hvector, hus, hes', rfl⟩ | ⟨rows', es', -, hus, hes', rfl⟩
    · exact absurd hus.symm (vector_ne_matrix hvector hes' hrows h)
    · obtain rfl := rows_inj h hes' hus
      rw [eq_of_forall₂ ih hes' fun _ _ _ => hitems]

end Derives

end Abacus
