import Abacus.Proofs.Grammar.Chains

/-!
# Reading, one step at a time

`Term.ofTokensAt` and the functions that it is defined with recurse on the number of tokens. This
module says once what each of them does, so that no later proof opens their definitions:

* `Term.ofTokensAt_append_left` and `Term.ofTokensAt_append_right` — tokens with an operation
  outside of all brackets are read like the tokens on its two sides;
* `Term.ofOperand_unary` and the equations after it — the forms that an operand can have, and its
  faults;
* `Term.OperandRead` and `Term.operandRead_of_ofOperand` — there are no other forms.
-/

namespace Abacus.Term

open Token (Nested BindsAtLeast inBrackets group? elements matrixRows?)

variable {depth : Nat} {ts us inner : List Token}

/-! ### Chains -/

theorem ofTokensAt_of_lt (h : maxNesting < depth) (ts : List Token) :
    ofTokensAt depth ts = .error .nesting := by
  rw [ofTokensAt, if_pos h]

theorem ofTokensAt_nil (hd : depth ≤ maxNesting) :
    ofTokensAt depth [] = .error .emptyExpression := by
  rw [ofTokensAt, if_neg (Nat.not_lt.2 hd)]
  rfl

/-- What cannot be cut is a fault. -/
theorem ofTokensAt_of_error (hd : depth ≤ maxNesting) (hts : ts ≠ []) {fault : Fault}
    (hc : Chain.ofTokens ts = .error fault) : ofTokensAt depth ts = .error fault := by
  rw [ofTokensAt, if_neg (Nat.not_lt.2 hd), if_neg (by simpa using hts)]
  split <;> simp_all

/-- A chain of one operand is read as an operand. -/
theorem ofTokensAt_eq_ofOperand (hd : depth ≤ maxNesting) (hts : ts ≠ []) {first : List Token}
    (hc : Chain.ofTokens ts = .ok ⟨first, []⟩) : ofTokensAt depth ts = ofOperand depth ts := by
  rw [ofTokensAt, if_neg (Nat.not_lt.2 hd), if_neg (by simpa using hts)]
  split <;> simp_all

/-- A chain that groups from the left is read from its first operand on. -/
theorem ofTokensAt_eq_ofLeftChain (hd : depth ≤ maxNesting) (hts : ts ≠ []) {first : List Token}
    {link : BinaryOp × List Token} {links : List (BinaryOp × List Token)}
    (hc : Chain.ofTokens ts = .ok ⟨first, link :: links⟩) (hleft : link.1.isRightAssoc = false) :
    ofTokensAt depth ts =
      ofTokensAt depth first >>= fun left => ofLeftChain depth left (link :: links) := by
  rw [ofTokensAt, if_neg (Nat.not_lt.2 hd), if_neg (by simpa using hts)]
  split <;> simp_all

/-- Each link of a chain that groups from the right adds to the depth. -/
theorem ofTokensAt_eq_ofRightChain (hd : depth ≤ maxNesting) (hts : ts ≠ []) {first : List Token}
    {link : BinaryOp × List Token} {links : List (BinaryOp × List Token)}
    (hc : Chain.ofTokens ts = .ok ⟨first, link :: links⟩) (hright : link.1.isRightAssoc = true) :
    ofTokensAt depth ts =
      if maxNesting < depth + (links.length + 1) then .error .nesting
      else ofRightChain (depth + (links.length + 1)) first (link :: links) := by
  rw [ofTokensAt, if_neg (Nat.not_lt.2 hd), if_neg (by simpa using hts)]
  split <;> simp_all

theorem ofLeftChain_nil (left : Term) : ofLeftChain depth left [] = .ok left := by
  rw [ofLeftChain]

theorem ofLeftChain_cons (left : Term) (op : BinaryOp) (us : List Token)
    (links : List (BinaryOp × List Token)) :
    ofLeftChain depth left ((op, us) :: links) =
      ofTokensAt depth us >>= fun right => ofLeftChain depth (.binary op left right) links := by
  rw [ofLeftChain]

theorem ofLeftChain_append (left : Term) (op : BinaryOp) (us : List Token)
    (links : List (BinaryOp × List Token)) :
    ofLeftChain depth left (links ++ [(op, us)]) = do
      let s ← ofLeftChain depth left links
      let t ← ofTokensAt depth us
      return .binary op s t := by
  induction links generalizing left with
  | nil =>
    simp only [List.nil_append, ofLeftChain_cons, ofLeftChain_nil, ok_bind]
    rfl
  | cons link links ih =>
    obtain ⟨op', us'⟩ := link
    simp only [List.cons_append, ofLeftChain_cons, ih, bind_assoc]

theorem ofRightChain_nil (first : List Token) :
    ofRightChain depth first [] = ofTokensAt depth first := by
  rw [ofRightChain]

theorem ofRightChain_cons (first : List Token) (op : BinaryOp) (us : List Token)
    (links : List (BinaryOp × List Token)) :
    ofRightChain depth first ((op, us) :: links) = do
      let right ← ofRightChain depth us links
      let left ← ofTokensAt depth first
      return .binary op left right := by
  rw [ofRightChain]

/-- What stands in front of the last operation of a chain that groups from the left is read first,
and what stands behind it last. -/
theorem ofTokensAt_append_left {o : Operator} {op : BinaryOp} (hnested : Nested ts)
    (hlast : ts.getLast?.any Token.endsOperand) (ho : o.binary? = some op) (hp : op.priority ≤ 4)
    (hts : BindsAtLeast op.priority ts) (hus : BindsAtLeast (op.priority + 1) us) :
    ofTokensAt depth (ts ++ .op o :: us) = do
      let s ← ofTokensAt depth ts
      let t ← ofTokensAt depth us
      return .binary op s t := by
  by_cases hd : maxNesting < depth
  · rw [ofTokensAt_of_lt hd, ofTokensAt_of_lt hd]
    rfl
  · have hd : depth ≤ maxNesting := Nat.not_lt.1 hd
    have hne : ts ≠ [] := by
      rintro rfl
      simp at hlast
    have hleft : ∀ op' : BinaryOp, op'.priority = op.priority → op'.isRightAssoc = false := by
      intro op' h
      rw [Bool.eq_false_iff, ne_eq, op'.isRightAssoc_iff]
      omega
    rcases Chain.ofTokens_append_left hnested hlast ho hts hus with
      ⟨-, hc⟩ | ⟨first, link, links, hfirst, hlink, hc⟩
    · -- the operation is the only one of its priority
      rw [ofTokensAt_eq_ofLeftChain hd (by simp) hc (hleft op rfl)]
      simp only [ofLeftChain_cons, ofLeftChain_nil]
      rfl
    · -- it is the last link of a longer chain
      rw [ofTokensAt_eq_ofLeftChain hd (by simp) hc (hleft _ hlink),
        ofTokensAt_eq_ofLeftChain hd hne hfirst (hleft _ hlink), ← List.cons_append]
      simp only [ofLeftChain_append, bind_assoc]

/-- What stands behind the first power of a chain is read one level deeper, and what stands in front
of it as many levels deeper as the chain has powers. -/
theorem ofTokensAt_append_right {o : Operator} {op : BinaryOp} (hnested : Nested ts)
    (hlast : ts.getLast?.any Token.endsOperand) (ho : o.binary? = some op) (hp : op.priority = 5)
    (hts : BindsAtLeast 6 ts) (hne : us ≠ []) (hus : BindsAtLeast 5 us) :
    ∃ first links, Chain.ofTokens us = .ok ⟨first, links⟩ ∧
      ofTokensAt depth (ts ++ .op o :: us) =
        if maxNesting < depth then .error .nesting
        else do
          let t ← ofTokensAt (depth + 1) us
          let s ← ofTokensAt (depth + (links.length + 1)) ts
          return .binary op s t := by
  obtain ⟨first, links, hchain, hlinks, hc⟩ :=
    Chain.ofTokens_append_right hnested hlast ho hp hts hus
  refine ⟨first, links, hchain, ?_⟩
  have hright : ∀ op' : BinaryOp, op'.priority = 5 → op'.isRightAssoc = true :=
    fun op' => op'.isRightAssoc_iff.2
  -- the limit is compared with the depth, with that behind the power, and with that in front of it
  by_cases hd : maxNesting < depth
  · rw [ofTokensAt_of_lt hd, if_pos hd]
  rw [if_neg hd, ofTokensAt_eq_ofRightChain (Nat.not_lt.1 hd) (by simp) hc (hright op hp)]
  by_cases hdeep : maxNesting < depth + 1
  · rw [ofTokensAt_of_lt hdeep, if_pos (by omega)]
    rfl
  cases links with
  | nil =>
    -- there is one power only
    obtain rfl : us = first := Chain.eq_first_of_ofTokens hchain
    rw [List.length_nil, if_neg hdeep, ofRightChain_cons, ofRightChain_nil]
  | cons link links =>
    -- one level deeper the other powers are one fewer, so their base is read at the same depth
    have hlink := hright _ (hlinks link List.mem_cons_self)
    rw [ofTokensAt_eq_ofRightChain (Nat.not_lt.1 hdeep) hne hchain hlink, List.length_cons,
      show depth + 1 + (links.length + 1) = depth + (links.length + 1 + 1) by omega]
    by_cases hdeeper : maxNesting < depth + (links.length + 1 + 1)
    · rw [if_pos hdeeper, if_pos hdeeper]
      rfl
    · rw [if_neg hdeeper, if_neg hdeeper, ofRightChain_cons]

/-! ### Operands -/

theorem ofOperand_number (v : Value) : ofOperand depth [.number v] = .ok (.literal v) := by
  rw [ofOperand]

theorem ofOperand_name (x : String) : ofOperand depth [.name x] = .ok (.var x) := by
  rw [ofOperand]

theorem ofOperand_unary {o : Operator} {op : UnaryOp} (ho : o.unary? = some op)
    (ts : List Token) :
    ofOperand depth (.op o :: ts) = .unary op <$> ofTokensAt (depth + 1) ts := by
  rw [ofOperand, ho]

theorem ofOperand_call (x : String) (hg : group? ts = some inner) :
    ofOperand depth (.name x :: .opening .round :: ts) =
      .call x <$> ofItems (depth + 1) (elements inner) := by
  rw [ofOperand]
  split <;> simp_all

theorem ofOperand_group (hg : group? ts = some inner) {item : List Token}
    (he : elements inner = [item]) :
    ofOperand depth (.opening .round :: ts) = ofTokensAt (depth + 1) item := by
  rw [ofOperand]
  split
  · next inner' hg' =>
    obtain rfl : inner' = inner := Option.some.inj (hg'.symm.trans hg)
    split
    · next he' => simp [he] at he'
    · next item' he' =>
      obtain rfl : item' = item := (List.cons.inj (he'.symm.trans he)).1
      rfl
    · next hone => exact absurd he (hone item)
  · next hg' => simp [hg] at hg'

theorem ofOperand_list (hg : group? ts = some inner) (he : 2 ≤ (elements inner).length) :
    ofOperand depth (.opening .round :: ts) =
      ofElements <$> ofItems (depth + 1) (elements inner) := by
  rw [ofOperand]
  split
  · next inner' hg' =>
    obtain rfl : inner' = inner := Option.some.inj (hg'.symm.trans hg)
    split
    · next he' => simp [he'] at he
    · next item' he' => simp [he'] at he
    · rfl
  · next hg' => simp [hg] at hg'

theorem ofOperand_vector (hg : group? ts = some inner) (hm : matrixRows? (elements inner) = none) :
    ofOperand depth (.opening .curly :: ts) =
      ofElements <$> ofItems (depth + 1) (elements inner) := by
  rw [ofOperand]
  split
  · next inner' hg' =>
    obtain rfl : inner' = inner := Option.some.inj (hg'.symm.trans hg)
    split
    · next hm' => simp [hm] at hm'
    · rfl
  · next hg' => simp [hg] at hg'

theorem ofOperand_matrix (hg : group? ts = some inner) {rows : List (List (List Token))}
    (hm : matrixRows? (elements inner) = some rows) :
    ofOperand depth (.opening .curly :: ts) =
      ofRowItems (depth + 2) rows >>= fun r =>
        if isRectangular r then .ok (ofRows r) else .error .raggedMatrix := by
  rw [ofOperand]
  split
  · next inner' hg' =>
    obtain rfl : inner' = inner := Option.some.inj (hg'.symm.trans hg)
    split
    · next rows' hm' =>
      obtain rfl : rows' = rows := Option.some.inj (hm'.symm.trans hm)
      rfl
    · next hm' => simp [hm] at hm'
  · next hg' => simp [hg] at hg'

/-! ### Faults of operands -/

theorem ofOperand_nil : ofOperand depth [] = .error .emptyExpression := by
  rw [ofOperand]

theorem ofOperand_missingLeft {o : Operator} (ho : o.unary? = none) (ts : List Token) :
    ofOperand depth (.op o :: ts) = .error (.missingLeftOperand o) := by
  rw [ofOperand, ho]

theorem ofOperand_call_of_none (x : String) (hg : group? ts = none) :
    ofOperand depth (.name x :: .opening .round :: ts) = .error (.unexpectedToken x) := by
  rw [ofOperand]
  split <;> simp_all

theorem ofOperand_opening_of_none (b : Bracket) (hg : group? ts = none) :
    ofOperand depth (.opening b :: ts) = .error (.unexpectedToken (shown (.opening b))) := by
  cases b with
  | round =>
    rw [ofOperand]
    split <;> simp_all
  | curly =>
    rw [ofOperand]
    split <;> simp_all

theorem ofOperand_emptyParentheses (hg : group? ts = some inner) (he : elements inner = []) :
    ofOperand depth (.opening .round :: ts) = .error .emptyParentheses := by
  rw [ofOperand]
  split
  · next inner' hg' =>
    obtain rfl : inner' = inner := Option.some.inj (hg'.symm.trans hg)
    split <;> simp_all
  · next hg' => simp [hg] at hg'

/-! ### Operands that are read -/

/-- The forms of an operand, with what is read inside it one level deeper. -/
inductive OperandRead (depth : Nat) : List Token → Term → Prop
  | unary {o : Operator} {op : UnaryOp} {ts : List Token} {t : Term} (ho : o.unary? = some op)
      (ht : ofTokensAt (depth + 1) ts = .ok t) : OperandRead depth (.op o :: ts) (.unary op t)
  | number (v : Value) : OperandRead depth [.number v] (.literal v)
  | name (x : String) : OperandRead depth [.name x] (.var x)
  | call (x : String) {ts inner : List Token} {arguments : List Term} (hg : group? ts = some inner)
      (h : ofItems (depth + 1) (elements inner) = .ok arguments) :
      OperandRead depth (.name x :: .opening .round :: ts) (.call x arguments)
  | group {ts inner item : List Token} {t : Term} (hg : group? ts = some inner)
      (he : elements inner = [item]) (h : ofTokensAt (depth + 1) item = .ok t) :
      OperandRead depth (.opening .round :: ts) t
  | list {ts inner : List Token} {es : List Term} (hg : group? ts = some inner)
      (he : 2 ≤ (elements inner).length) (h : ofItems (depth + 1) (elements inner) = .ok es) :
      OperandRead depth (.opening .round :: ts) (ofElements es)
  | vector {ts inner : List Token} {es : List Term} (hg : group? ts = some inner)
      (hm : matrixRows? (elements inner) = none)
      (h : ofItems (depth + 1) (elements inner) = .ok es) :
      OperandRead depth (.opening .curly :: ts) (ofElements es)
  | matrix {ts inner : List Token} {rows : List (List (List Token))} {es : List (List Term)}
      (hg : group? ts = some inner) (hm : matrixRows? (elements inner) = some rows)
      (h : ofRowItems (depth + 2) rows = .ok es) (hrect : isRectangular es) :
      OperandRead depth (.opening .curly :: ts) (ofRows es)

theorem two_le_length {α : Type} {as : List α} (hnil : as ≠ []) (hone : ∀ a, as ≠ [a]) :
    2 ≤ as.length := by
  cases as with
  | nil => exact absurd rfl hnil
  | cons a as =>
    cases as with
    | nil => exact absurd rfl (hone a)
    | cons b as => simp

/-- An operand that is read has one of these forms. -/
theorem operandRead_of_ofOperand {t : Term} (h : ofOperand depth ts = .ok t) :
    OperandRead depth ts t := by
  unfold ofOperand at h
  split at h
  · cases h
  · split at h
    · cases h
    · next ho =>
      obtain ⟨s, hs, rfl⟩ := map_eq_ok_iff.1 h
      exact .unary ho hs
  · cases h
    exact .number _
  · cases h
    exact .name _
  · split at h
    · next hg =>
      obtain ⟨s, hs, rfl⟩ := map_eq_ok_iff.1 h
      exact .call _ hg hs
    · cases h
  · split at h
    · next hg =>
      split at h
      · cases h
      · next he => exact .group hg he h
      · next hnil hone =>
        obtain ⟨s, hs, rfl⟩ := map_eq_ok_iff.1 h
        exact .list hg (two_le_length hnil hone) hs
    · cases h
  · split at h
    · next hg =>
      split at h
      · next hm =>
        obtain ⟨es, hes, hrect⟩ := bind_eq_ok_iff.1 h
        split at hrect
        · next hr =>
          cases hrect
          exact .matrix hg hm hes hr
        · cases hrect
      · next hm =>
        obtain ⟨es, hes, rfl⟩ := map_eq_ok_iff.1 h
        exact .vector hg hm hes
    · cases h
  · cases h

theorem ofItems_nil : ofItems depth [] = .ok [] := by
  rw [ofItems]

theorem ofItems_cons (item : List Token) (items : List (List Token)) :
    ofItems depth (item :: items) = do
      let t ← ofTokensAt depth item
      let ts ← ofItems depth items
      return t :: ts := by
  rw [ofItems]

theorem ofRowItems_nil : ofRowItems depth [] = .ok [] := by
  rw [ofRowItems]

theorem ofRowItems_cons (row : List (List Token)) (rows : List (List (List Token))) :
    ofRowItems depth (row :: rows) = do
      let r ← ofItems depth row
      let rs ← ofRowItems depth rows
      return r :: rs := by
  rw [ofRowItems]

theorem isRectangular_iff (rows : List (List Term)) :
    isRectangular rows = true ↔ ∃ columns, ∀ row ∈ rows, row.length = columns := by
  cases rows with
  | nil => simp [isRectangular]
  | cons row rows =>
    simp only [isRectangular, List.all_eq_true, beq_iff_eq, List.mem_cons, forall_eq_or_imp]
    constructor
    · intro h
      exact ⟨row.length, rfl, h⟩
    · rintro ⟨columns, rfl, h⟩
      exact h

end Abacus.Term
