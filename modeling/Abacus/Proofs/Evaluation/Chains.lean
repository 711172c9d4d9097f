import Abacus.Proofs.Evaluation.Continuation

/-!
# Chains of operations

A binary operation whose left operand is a binary operation again, and so on, is a chain. It can be
evaluated by recursion, the left operand before the right one and the operation last. It can also be
evaluated in a loop that walks down to the first operand and from there outwards, so that chains of
any length need no recursion (`Scope.evalChain`). Both give the same value or the same fault, and
they are what the evaluation of a term does (`Scope.evalWithin_binary`).

`Term.unchain` takes a chain apart and `Term.ofLinks` puts it together again. The loop is related to
the recursion by induction on the links, with whatever stands in front of them as first operand.
-/

namespace Abacus

namespace Term

/-- An operation on the chain in front of it. -/
structure Link where
  op : BinaryOp
  right : Term

/-- The first operand of a chain and the links behind it, from the innermost outwards. Links that
are given follow those of the term. -/
def unchain : Term → List Link → Term × List Link
  | binary op left right, links => unchain left (⟨op, right⟩ :: links)
  | t, links => (t, links)

/-- The chain with a first operand and links. -/
def ofLinks (first : Term) (links : List Link) : Term :=
  links.foldl (fun left link => binary link.op left link.right) first

/-- Nothing is lost when a chain is taken apart. -/
theorem ofLinks_unchain (t : Term) (links : List Link) :
    ofLinks (t.unchain links).1 (t.unchain links).2 = ofLinks t links := by
  fun_induction unchain t links with
  | case1 links op left right ih => exact ih
  | case2 t links _ => rfl

/-- A chain is taken apart down to an operand that is no binary operation. -/
theorem unchain_fst_ne_binary (t : Term) (links : List Link) (op : BinaryOp) (left right : Term) :
    (t.unchain links).1 ≠ binary op left right := by
  fun_induction unchain t links with
  | case1 links op left right ih => exact ih
  | case2 t links hoperand => exact hoperand op left right

end Term

namespace Scope

variable (s : Scope) (calls : Nat) (locals : Bindings)

/-- Applies the operation of a link to the value of what is in front of it. -/
def evalLink (v : Value) (link : Term.Link) : Except Fault Value := do
  let w ← s.evalWithin calls locals link.right
  link.op.apply v w

/-- Evaluates a chain in a loop over its links. -/
def evalChain (t : Term) : Except Fault Value := do
  let (first, links) := t.unchain []
  let v ← s.evalWithin calls locals first
  links.foldlM (s.evalLink calls locals) v

/-- The recursion: first the left operand, then the right one, then the operation. -/
theorem evalWithin_eq_bind (op : BinaryOp) (left right : Term) :
    s.evalWithin calls locals (.binary op left right) =
      s.evalWithin calls locals left >>= fun v =>
        s.evalWithin calls locals right >>= fun w => op.apply v w := by
  cases calls <;> simp only [evalWithin, evalThen_binary, bind_ok]

/-- The links of a chain are evaluated one after the other. -/
theorem evalWithin_ofLinks (first : Term) (links : List Term.Link) :
    s.evalWithin calls locals (.ofLinks first links) =
      s.evalWithin calls locals first >>= fun v => links.foldlM (s.evalLink calls locals) v := by
  induction links generalizing first with
  | nil => exact (bind_pure _).symm
  | cons link links ih =>
    -- the first link becomes part of what stands in front of the others
    calc s.evalWithin calls locals (.ofLinks first (link :: links))
      _ = s.evalWithin calls locals (.binary link.op first link.right) >>= fun v =>
            links.foldlM (s.evalLink calls locals) v := ih _
      _ = s.evalWithin calls locals first >>= fun v =>
            s.evalLink calls locals v link >>= fun u =>
              links.foldlM (s.evalLink calls locals) u := by
          simp only [evalWithin_eq_bind, evalLink, bind_assoc]
      _ = s.evalWithin calls locals first >>= fun v =>
            (link :: links).foldlM (s.evalLink calls locals) v := by
          simp only [List.foldlM_cons]

/-- **The loop over a chain equals plain recursion.** However many operations a binary operation has
on its left, and whatever these are: walking down to an operand that is no binary operation and from
there outwards gives what the recursion gives. This is the fault of the left operand, or else the
fault of the right one, or else what the operation yields on the two values. -/
theorem evalWithin_binary (op : BinaryOp) (left right : Term) :
    let t : Term := .binary op left right
    s.evalWithin calls locals t = s.evalChain calls locals t ∧
      (∀ op left right, (t.unchain []).1 ≠ .binary op left right) ∧
      s.evalWithin calls locals t =
        match s.evalWithin calls locals left with
        | .error fault => .error fault
        | .ok v =>
          match s.evalWithin calls locals right with
          | .error fault => .error fault
          | .ok w => op.apply v w := by
  intro t
  refine ⟨?_, t.unchain_fst_ne_binary [], ?_⟩
  · calc s.evalWithin calls locals t
      _ = s.evalWithin calls locals (.ofLinks (t.unchain []).1 (t.unchain []).2) := by
          rw [Term.ofLinks_unchain]
          rfl
      _ = s.evalChain calls locals t := s.evalWithin_ofLinks calls locals _ _
  · rw [s.evalWithin_eq_bind calls locals op left right]
    cases s.evalWithin calls locals left with
    | error fault => rfl
    | ok v => cases s.evalWithin calls locals right <;> rfl

end Scope

end Abacus
