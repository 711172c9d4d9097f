import Abacus.Proofs.Positions.Basic

/-!
# Chains by positions

The operations that bind least tightly are found in one pass over the tokens that keeps the lowest
priority so far and the positions at which it was found; a lower one starts the positions anew. The
operands are the slices between these positions, where that on the right of a position ends at the
next one, if there is a next one.

`splitsFrom_eq` is about the pass: whatever was found before, it ends with the positions of the
lowest priority of all. These are where the links of `Chain.ofTokens` start (`findSplits_eq`), and
so the operands that are sliced are those of the chain (`leftLoop_eq`, `rightLoop_eq`): both loops
are followed with the tokens and the positions in front of what is left of the chain.
-/

namespace Abacus.Positional

open Activation (answer leftChain rightChain)
open Chain (cut linkTokens lowest? marks)

/-- The index of an operation between operands, and its operator. -/
abbrev Split := Nat × Operator

/-- Throws a fault that tells the first spelling of an operator. -/
def throwNamed {α : Type} (fault : Operator → Fault) (o : Operator) : Careful α := do
  let _ ← reach o.spellings[0]?
  throw (fault o)

/-- The binary meaning of an operator. -/
def binary (o : Operator) : Careful BinaryOp :=
  match o.binary? with
  | some op => return op
  | none => throwNamed .notBinary o

/-- An operator on operands. That it does not take as many is a misstep. -/
def node (o : Operator) (operands : List Term) : Careful Term :=
  match Term.ofOperator o operands with
  | .ok t => return t
  | .error _ => misstep

/-! ### Finding operations -/

/-- Whether an operator at an index is one between operands. -/
def isBetween (tokens : List Token) (level : Int) (index : Nat) : Careful Bool :=
  if level = 0 ∧ 0 < index then do
    let previous ← reach (lessOne? index)
    return (← reach tokens[previous]?).endsOperand
  else return false

/-- The operator that the token at an index is, with its priority, if it is one between operands. -/
def markAt (tokens : List Token) (level : Int) (index : Nat) :
    Token → Careful (Option (Operator × Nat))
  | .op o => do
    if ← isBetween tokens level index then return some (o, (← binary o).priority)
    else return none
  | .comma => if level = 0 then throw .strayComma else return none
  | .define => throw .strayDefine
  | _ => return none

/-- The lowest priority and the splits at which it was found, after one more operation. -/
def record (lowest : Nat) (splits : List Split) (split : Split) (priority : Nat) :
    Nat × List Split :=
  if priority < lowest then (priority, [split])
  else if priority = lowest then (lowest, splits ++ [split])
  else (lowest, splits)

/-- The splits of the lowest priority, given those that were found so far. -/
def splitsFrom (tokens : List Token) (level : Int) (lowest : Nat) (splits : List Split)
    (index : Nat) : List Token → Careful (List Split)
  | [] => return splits
  | t :: ts => do
    let found :=
      match ← markAt tokens level index t with
      | some (o, priority) => record lowest splits (index, o) priority
      | none => (lowest, splits)
    splitsFrom tokens (level + t.nesting) found.1 found.2 (index + 1) ts

/-- A number that is larger than every priority. -/
def maxPriority : Nat := 2147483647

/-- The splits of the lowest priority. -/
def findSplits (tokens : List Token) : Careful (List Split) :=
  splitsFrom tokens 0 maxPriority [] 0 tokens

/-! ### Reading operands -/

/-- Where the operand on the right of a split ends. -/
def operandStop (tokens : List Token) (splits : List Split) (k : Nat) : Nat :=
  match splits[k + 1]? with
  | some next => next.1
  | none => tokens.length

/-- Where the operand on the left of a split starts. -/
def operandStart (splits : List Split) : (k : Nat) → Careful Nat
  | 0 => return 0
  | k + 1 => return (← reach splits[k]?).1 + 1

section

variable (read : Nat → List Token → Careful Term) (depth : Nat) (tokens : List Token)
  (splits : List Split)

/-- Goes on with a chain that groups from the left at the split `k`. -/
def leftLoop : (k : Nat) → List Split → Term → Careful Term
  | _, [], left => return left
  | k, (index, o) :: rest, left => do
    let us ← reach (slice? tokens (index + 1) (operandStop tokens splits k))
    let right ← read depth us
    leftLoop (k + 1) rest (← node o [left, right])

/-- Goes on with a chain that groups from the right, where the first `k` splits are left. -/
def rightLoop : (k : Nat) → Term → Careful Term
  | 0, right => return right
  | k + 1, right => do
    let (index, o) ← reach splits[k]?
    let us ← reach (slice? tokens (← operandStart splits k) index)
    let left ← read depth us
    rightLoop k (← node o [left, right])

/-- The operand behind the last split. -/
def lastOperand : Careful Term := do
  let last ← reach (lessOne? splits.length)
  let split ← reach splits[last]?
  read depth (← reach (slice? tokens (split.1 + 1) tokens.length))

end

/-! ### The pass -/

theorem binary_operator (op : BinaryOp) : binary op.operator = pure op := by
  rw [binary, op.binary?_operator]

theorem node_binary (op : BinaryOp) (left right : Term) :
    node op.operator [left, right] = pure (.binary op left right) := by
  simp [node, Term.ofOperator]

theorem node_unary {o : Operator} {op : UnaryOp} (ho : o.unary? = some op) (t : Term) :
    node o [t] = pure (.unary op t) := by
  simp [node, Term.ofOperator, ho]

/-- Every operator has a first spelling. -/
theorem throwNamed_eq {α : Type} (fault : Operator → Fault) (o : Operator) :
    throwNamed fault o = (throw (fault o) : Careful α) := by
  have hspelling : ∃ s, o.spellings[0]? = some s := by cases o <;> exact ⟨_, rfl⟩
  obtain ⟨s, hs⟩ := hspelling
  rw [throwNamed, hs, reach_some, pure_bind]

/-- The token in front of an index is there if the index is not zero. -/
theorem isBetween_eq (front ts : List Token) (level : Int) :
    isBetween (front ++ ts) level front.length =
      pure (decide (level = 0 ∧ front.getLast?.any Token.endsOperand)) := by
  rw [isBetween]
  rcases List.eq_nil_or_concat' front with rfl | ⟨front, t, rfl⟩
  · simp
  · have hpos : 0 < (front ++ [t]).length := by simp
    have hprevious : lessOne? (front ++ [t]).length = some front.length := by
      rw [List.length_append]
      rfl
    have htoken : (front ++ [t] ++ ts)[front.length]? = some t := by
      rw [List.append_assoc]
      exact getElem?_append_cons front t ts
    rw [List.getLast?_concat, Option.any_some]
    by_cases hlevel : level = 0
    · rw [if_pos ⟨hlevel, hpos⟩, hprevious, reach_some, pure_bind, htoken, reach_some, pure_bind]
      simp [hlevel]
    · rw [if_neg fun h => hlevel h.1]
      simp [hlevel]

theorem markAt_eq (front ts : List Token) (level : Int) (t : Token) :
    markAt (front ++ ts) level front.length t =
      (Option.map fun op => (op.operator, op.priority)) <$>
        answer (Chain.mark level front.getLast? t) := by
  cases t with
  | op o =>
    rw [markAt, Chain.mark, isBetween_eq, pure_bind]
    by_cases hbetween : level = 0 ∧ front.getLast?.any Token.endsOperand
    · rw [if_pos (decide_eq_true hbetween), if_pos hbetween, binary]
      cases ho : o.binary? with
      | some op =>
        obtain rfl := Operator.eq_operator_of_binary? ho
        rfl
      | none =>
        dsimp only
        rw [throwNamed_eq]
        rfl
    · rw [if_neg (by simpa using hbetween), if_neg hbetween]
      rfl
  | comma =>
    rw [markAt, Chain.mark]
    split <;> rfl
  | _ => rfl

/-- The lower one of a priority and all those of marked operations. -/
def lowestFrom (lowest : Nat) : List (Token × Option BinaryOp) → Nat
  | [] => lowest
  | (_, none) :: ms => lowestFrom lowest ms
  | (_, some op) :: ms => lowestFrom (min lowest op.priority) ms

theorem lowestFrom_le (lowest : Nat) (ms : List (Token × Option BinaryOp)) :
    lowestFrom lowest ms ≤ lowest := by
  fun_induction lowestFrom lowest ms with
  | case1 => exact Nat.le_refl _
  | case2 lowest t ms ih => exact ih
  | case3 lowest t op ms ih => exact Nat.le_trans ih (Nat.min_le_left _ _)

theorem lowestFrom_eq (lowest : Nat) (ms : List (Token × Option BinaryOp)) :
    lowestFrom lowest ms = ((lowest? ms).map (min lowest)).getD lowest := by
  fun_induction lowestFrom lowest ms with
  | case1 => rfl
  | case2 lowest t ms ih => exact ih
  | case3 lowest t op ms ih =>
    rw [ih, lowest?]
    cases lowest? ms with
    | none => rfl
    | some p => exact Nat.min_assoc _ _ _

/-- The splits at the links of a chain, given the index of the first of them. -/
def linkSplits : (index : Nat) → List (BinaryOp × List Token) → List Split
  | _, [] => []
  | index, (op, us) :: links => (index, op.operator) :: linkSplits (index + 1 + us.length) links

theorem length_linkSplits (index : Nat) (links : List (BinaryOp × List Token)) :
    (linkSplits index links).length = links.length := by
  fun_induction linkSplits index links with
  | case1 => rfl
  | case2 index op us links ih => rw [List.length_cons, List.length_cons, ih]

/-- The splits of a chain that starts at an index. -/
def splitsOf (index : Nat) (c : Chain) : List Split :=
  linkSplits (index + c.first.length) c.links

theorem splitsOf_cut_none (p index : Nat) (t : Token) (ms : List (Token × Option BinaryOp)) :
    splitsOf index (cut p ((t, none) :: ms)) = splitsOf (index + 1) (cut p ms) := by
  simp only [splitsOf, cut, List.length_cons]
  congr 1
  omega

theorem splitsOf_cut_some (p index : Nat) (t : Token) (op : BinaryOp)
    (ms : List (Token × Option BinaryOp)) :
    splitsOf index (cut p ((t, some op) :: ms)) =
      (if op.priority = p then [(index, op.operator)] else []) ++
        splitsOf (index + 1) (cut p ms) := by
  by_cases hp : op.priority = p
  · simp [splitsOf, cut, hp, linkSplits]
  · simp only [splitsOf, cut, hp, if_false, List.length_cons, List.nil_append]
    congr 1
    omega

/-- What is kept of the splits that were found so far, and those of the lowest priority behind. -/
def allSplits (lowest : Nat) (splits : List Split) (index : Nat)
    (ms : List (Token × Option BinaryOp)) : List Split :=
  (if lowestFrom lowest ms < lowest then [] else splits) ++
    splitsOf index (cut (lowestFrom lowest ms) ms)

theorem allSplits_none (lowest : Nat) (splits : List Split) (index : Nat) (t : Token)
    (ms : List (Token × Option BinaryOp)) :
    allSplits lowest splits index ((t, none) :: ms) =
      allSplits lowest splits (index + 1) ms := by
  rw [allSplits, allSplits, lowestFrom, splitsOf_cut_none]

/-- An operation that was recorded is one of all. -/
theorem allSplits_record (lowest : Nat) (splits : List Split) (index : Nat) (t : Token)
    (op : BinaryOp) (ms : List (Token × Option BinaryOp)) :
    let found := record lowest splits (index, op.operator) op.priority
    allSplits found.1 found.2 (index + 1) ms =
      allSplits lowest splits index ((t, some op) :: ms) := by
  intro found
  have hle := lowestFrom_le (min lowest op.priority) ms
  rw [allSplits, allSplits, splitsOf_cut_some, lowestFrom, ← List.append_assoc]
  simp only [found, record]
  by_cases hlt : op.priority < lowest
  · -- the operation is kept unless a lower one is behind it
    rw [if_pos hlt]
    rw [Nat.min_eq_right (Nat.le_of_lt hlt)] at hle ⊢
    rw [if_pos (Nat.lt_of_le_of_lt hle hlt), List.nil_append]
    by_cases hlower : lowestFrom op.priority ms < op.priority
    · rw [if_pos hlower, if_neg (by omega)]
    · rw [if_neg hlower, if_pos (by omega)]
  · rw [if_neg hlt]
    rw [Nat.min_eq_left (Nat.not_lt.1 hlt)] at hle ⊢
    by_cases heq : op.priority = lowest
    · rw [if_pos heq, heq]
      by_cases hlower : lowestFrom lowest ms < lowest
      · rw [if_pos hlower, if_pos hlower, if_neg (by omega)]
        rfl
      · rw [if_neg hlower, if_neg hlower, if_pos (by omega)]
    · have hne : op.priority ≠ lowestFrom lowest ms := by omega
      rw [if_neg heq, if_neg hne, List.append_nil]

/-- **The pass finds the splits of the lowest priority.** What was found before is kept if it is of
this priority. -/
theorem splitsFrom_eq (front ts : List Token) (level : Int) (lowest : Nat) (splits : List Split) :
    splitsFrom (front ++ ts) level lowest splits front.length ts =
      allSplits lowest splits front.length <$> answer (marks level front.getLast? ts) := by
  induction ts generalizing front level lowest splits with
  | nil =>
    have hkept : allSplits lowest splits front.length [] = splits := by
      rw [allSplits, lowestFrom, if_neg (Nat.lt_irrefl _)]
      exact List.append_nil splits
    show pure splits = (pure (allSplits lowest splits front.length []) : Careful (List Split))
    rw [hkept]
  | cons t ts ih =>
    have hrest := ih (front ++ [t])
    rw [List.append_assoc, List.singleton_append, List.length_append, List.length_singleton,
      List.getLast?_concat] at hrest
    rw [splitsFrom, markAt_eq, marks]
    cases Chain.mark level front.getLast? t with
    | error fault => rfl
    | ok m =>
      cases m with
      | none =>
        refine (hrest _ _ _).trans ?_
        cases marks (level + t.nesting) (some t) ts with
        | error fault => rfl
        | ok ms =>
          exact congrArg (pure (f := Careful))
            (allSplits_none lowest splits front.length t ms).symm
      | some op =>
        refine (hrest _ _ _).trans ?_
        cases marks (level + t.nesting) (some t) ts with
        | error fault => rfl
        | ok ms =>
          exact congrArg (pure (f := Careful))
            (allSplits_record lowest splits front.length t op ms)

/-- **No position is missed where operations are found.** -/
theorem findSplits_eq (ts : List Token) :
    findSplits ts = splitsOf 0 <$> answer (Chain.ofTokens ts) := by
  refine (splitsFrom_eq [] ts 0 maxPriority []).trans ?_
  rw [Chain.ofTokens]
  show allSplits maxPriority [] 0 <$> answer (marks 0 none ts) = _
  cases marks 0 none ts with
  | error fault => rfl
  | ok ms =>
    have hcut : cut (lowestFrom maxPriority ms) ms = cut ((lowest? ms).getD 0) ms := by
      rw [lowestFrom_eq]
      cases hlowest : lowest? ms with
      | none =>
        -- there is no operation, and so it does not matter at which priority tokens are cut
        have hops := (Chain.lowest?_eq_none_iff ms).1 hlowest
        rw [Chain.cut_of_forall_ne (by simp [hops]), Chain.cut_of_forall_ne (by simp [hops])]
      | some p =>
        obtain ⟨⟨op, -, rfl⟩, -⟩ := (Chain.lowest?_eq_some_iff ms p).1 hlowest
        have hle : op.priority ≤ maxPriority := Nat.le_trans op.priority_le_five (by decide)
        rw [Option.map_some, Option.getD_some, Option.getD_some, Nat.min_eq_right hle]
    have hall : allSplits maxPriority [] 0 ms = splitsOf 0 (cut ((lowest? ms).getD 0) ms) := by
      rw [allSplits, hcut, ite_self, List.nil_append]
    exact congrArg (pure (f := Careful)) hall

/-! ### The operands between the splits -/

/-- The operands of a chain and the operations between them are the tokens that were cut. -/
theorem eq_append_of_ofTokens {ts first : List Token} {links : List (BinaryOp × List Token)}
    (h : Chain.ofTokens ts = .ok ⟨first, links⟩) : ts = first ++ linkTokens links := by
  obtain ⟨ms, hms, hcut⟩ := bind_eq_ok_iff.1 h
  have htokens := Chain.append_linkTokens_cut hms ((lowest? ms).getD 0)
  rw [pure_eq_ok_iff.1 hcut] at htokens
  exact htokens.symm

section

variable {read : Nat → List Token → Careful Term} {depth : Nat}

/-- The operand on the right of a split ends where the next link starts. -/
theorem operandStop_eq {tokens : List Token} {all : List Split} (front us : List Token)
    (o : Operator) (splits : List Split) (links : List (BinaryOp × List Token))
    (htokens : tokens = front ++ .op o :: (us ++ linkTokens links))
    (hall : all = splits ++ (front.length, o) :: linkSplits (front.length + 1 + us.length) links) :
    operandStop tokens all splits.length = front.length + 1 + us.length := by
  have hnext : all[splits.length + 1]? =
      (linkSplits (front.length + 1 + us.length) links)[0]? := by
    rw [hall, List.getElem?_append_right (Nat.le_add_right _ 1), Nat.add_sub_cancel_left]
    rfl
  rw [operandStop, hnext]
  cases links with
  | nil =>
    rw [htokens, linkTokens, List.append_nil]
    show (front ++ .op o :: us).length = front.length + 1 + us.length
    rw [List.length_append, List.length_cons]
    omega
  | cons link links => rfl

/-- **The operands of a chain that groups from the left are sliced.** In front of what is left of
the chain stand some tokens and some splits. -/
theorem leftLoop_eq {tokens : List Token} {all : List Split} (front : List Token)
    (splits : List Split) (links : List (BinaryOp × List Token)) (left : Term)
    (htokens : tokens = front ++ linkTokens links)
    (hall : all = splits ++ linkSplits front.length links) :
    leftLoop read depth tokens all splits.length (linkSplits front.length links) left =
      leftChain read depth left links := by
  induction links generalizing front splits left with
  | nil => rfl
  | cons link links ih =>
    obtain ⟨op, us⟩ := link
    have hstop := operandStop_eq front us op.operator splits links htokens hall
    have hslice : slice? tokens (front.length + 1) (front.length + 1 + us.length) = some us := by
      have hbetween := slice?_append (front ++ [.op op.operator]) us (linkTokens links)
      rw [List.append_assoc, List.length_append] at hbetween
      rw [htokens]
      exact hbetween
    rw [linkSplits, leftLoop, hstop, hslice, reach_some, pure_bind, leftChain]
    refine congrArg _ (funext fun right => ?_)
    -- the loop goes on behind the operand
    have hfront : (front ++ .op op.operator :: us).length = front.length + 1 + us.length := by
      rw [List.length_append, List.length_cons]
      omega
    have hrest := ih (front ++ .op op.operator :: us) (splits ++ [(front.length, op.operator)])
      (.binary op left right) (by rw [htokens]; simp [linkTokens])
      (by rw [hall, hfront]; simp [linkSplits])
    rw [hfront, List.length_append, List.length_singleton] at hrest
    rw [node_binary, pure_bind, hrest]

/-- The operand behind the last split starts where one on the left of another split would. -/
theorem lastOperand_eq (tokens : List Token) {all : List Split} (hne : all ≠ []) :
    lastOperand read depth tokens all = (do
      let start ← operandStart all all.length
      read depth (← reach (slice? tokens start tokens.length))) := by
  obtain ⟨n, hn⟩ : ∃ n, all.length = n + 1 := Nat.exists_eq_succ_of_ne_zero (by simpa using hne)
  rw [lastOperand, hn, lessOne?, reach_some, pure_bind, operandStart]
  simp only [bind_assoc, pure_bind]

/-- **The operands of a chain that groups from the right are sliced.** The loop goes back over the
splits, so it is followed up to those that stand in front of the chain. -/
theorem rightLoop_eq {tokens : List Token} {all : List Split} (hne : all ≠ [])
    (front first : List Token) (splits : List Split) (links : List (BinaryOp × List Token))
    (htokens : tokens = front ++ (first ++ linkTokens links))
    (hall : all = splits ++ linkSplits (front.length + first.length) links)
    (hstart : operandStart all splits.length = pure front.length) :
    (lastOperand read depth tokens all >>= rightLoop read depth tokens all all.length) =
      rightChain read depth first links >>= rightLoop read depth tokens all splits.length := by
  induction links generalizing front first splits with
  | nil =>
    have hsplits : all = splits := by rw [hall, linkSplits, List.append_nil]
    have hslice : slice? tokens front.length tokens.length = some first := by
      rw [htokens, linkTokens, List.append_nil]
      exact slice?_length front first
    rw [lastOperand_eq tokens hne, hsplits]
    rw [hsplits] at hstart
    rw [hstart, pure_bind, hslice, reach_some, pure_bind, rightChain]
  | cons link links ih =>
    obtain ⟨op, us⟩ := link
    -- what stands in front of the next operand, and the splits in front of it
    have hfront : (front ++ (first ++ [Token.op op.operator])).length =
        front.length + first.length + 1 := by
      rw [List.length_append, List.length_append, List.length_singleton, Nat.add_assoc]
    have hsplit : all[splits.length]? = some (front.length + first.length, op.operator) := by
      rw [hall, linkSplits]
      exact getElem?_append_cons splits _ _
    have hrest := ih (front ++ (first ++ [.op op.operator])) us
      (splits ++ [(front.length + first.length, op.operator)])
      (by rw [htokens]; simp [linkTokens])
      (by rw [hall, hfront]; simp [linkSplits])
      (by
        rw [List.length_append, List.length_singleton, operandStart, hsplit, hfront]
        rfl)
    have hslice : slice? tokens front.length (front.length + first.length) = some first := by
      rw [htokens]
      exact slice?_append front first _
    rw [hrest, List.length_append, List.length_singleton, rightChain]
    simp only [bind_assoc, pure_bind]
    refine congrArg _ (funext fun right => ?_)
    rw [rightLoop, hsplit, reach_some, pure_bind]
    dsimp only
    rw [hstart, pure_bind, hslice, reach_some, pure_bind]
    simp only [node_binary, pure_bind]

end

end Abacus.Positional
