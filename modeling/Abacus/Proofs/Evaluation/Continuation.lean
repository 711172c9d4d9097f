import Abacus.Evaluation
import Abacus.Proofs.Outcome

/-!
# What is left to do comes last

`Scope.evalThen` hands down what is left to do with a value. That is only a way to walk a chain of
operations: evaluating a term and going on with its value is the same as evaluating it first and
going on afterwards (`Scope.evalThen_eq_bind`). The equations of the operations follow from this, in
the form in which one would write them down without the continuation.

Statements about evaluations are proved by induction on the term, with a case for each of these
equations (`Term.induction`).
-/

namespace Abacus.Scope

variable (s : Scope) (enter : Option Enter) (locals : Bindings)

/-- A unary operation on a value, where the form of the operand does not count. -/
theorem evalThen_unary {op : UnaryOp} {t : Term} (next : Value → Except Fault Value)
    (hconditional : op = .conditional → ∀ condition yes no, t ≠ .vector [condition, yes, no])
    (hconversion : op = .conversion → ∀ elements, t ≠ .vector elements) :
    s.evalThen enter locals (.unary op t) next =
      s.evalThen enter locals t .ok >>= fun v => op.apply s.operationContext v >>= next := by
  -- the equations of the two special forms come first, and neither applies
  rw [evalThen.eq_def]
  split
  case h_3 heq =>
    cases heq
    exact absurd rfl (hconditional rfl _ _ _)
  case h_4 heq =>
    cases heq
    exact absurd rfl (hconversion rfl _)
  case h_5 heq =>
    cases heq
    exact absurd rfl (hconversion rfl _)
  case h_6 heq =>
    cases heq
    rfl
  all_goals next heq => cases heq

/-- A conversion whose operand and units are not in place is a fault. -/
theorem evalThen_conversion_error {elements : List Term}
    (h : ∀ operand source target, elements ≠ [operand, .var source, .var target])
    (next : Value → Except Fault Value) :
    s.evalThen enter locals (.unary .conversion (.vector elements)) next =
      .error .conversionForm := by
  rw [evalThen.eq_def]
  split
  case h_4 heq =>
    cases heq
    exact absurd rfl (h _ _ _)
  case h_5 => rfl
  case h_6 hconversion heq =>
    cases heq
    exact (hconversion elements rfl rfl).elim
  all_goals next heq => cases heq

/-- A unary operation is a choice between two terms, a conversion of a list of terms, or an
operation on the value of its operand. -/
theorem unary_forms (op : UnaryOp) (t : Term) :
    (op = .conditional ∧ ∃ condition yes no, t = .vector [condition, yes, no]) ∨
      (op = .conversion ∧ ∃ elements, t = .vector elements) ∨
      ((op = .conditional → ∀ condition yes no, t ≠ .vector [condition, yes, no]) ∧
        (op = .conversion → ∀ elements, t ≠ .vector elements)) := by
  by_cases hconditional : op = .conditional ∧ ∃ condition yes no, t = .vector [condition, yes, no]
  · exact .inl hconditional
  · by_cases hconversion : op = .conversion ∧ ∃ elements, t = .vector elements
    · exact .inr (.inl hconversion)
    · exact .inr (.inr ⟨fun hop c y n ht => hconditional ⟨hop, c, y, n, ht⟩,
        fun hop es ht => hconversion ⟨hop, es, ht⟩⟩)

/-- **A continuation can be applied afterwards.** The induction is on the term, whatever is left to
do with its value. -/
theorem evalThen_eq_bind : ∀ (t : Term) (next : Value → Except Fault Value),
    s.evalThen enter locals t next = s.evalThen enter locals t .ok >>= next
  | .literal v, next => rfl
  | .var x, next => by
    simp only [evalThen]
    cases s.lookup? locals x <;> rfl
  | .binary op left right, next => by
    -- the left operand is evaluated with a continuation that does all the rest
    have hleft := evalThen_eq_bind left
    calc
      s.evalThen enter locals (.binary op left right) next
        = s.evalThen enter locals left .ok >>= fun v =>
            s.evalThen enter locals right .ok >>= fun w => op.apply v w >>= next := hleft _
      _ = (s.evalThen enter locals left .ok >>= fun v =>
            s.evalThen enter locals right .ok >>= fun w => op.apply v w >>= .ok) >>= next := by
          simp only [bind_assoc, ok_bind]
      _ = s.evalThen enter locals (.binary op left right) .ok >>= next :=
          congrArg (· >>= next) (hleft _).symm
  | .vector elements, next => by
    simp only [evalThen, bind_assoc, ok_bind]
  | .matrix rows, next => by
    simp only [evalThen, bind_assoc, ok_bind]
  | .call x arguments, next => by
    simp only [evalThen]
    split
    · rfl
    · split
      · rfl
      · split
        · rfl
        · simp only [bind_assoc, ok_bind]
    · rfl
  | .assign x t, next => by
    simp only [evalThen, error_bind]
  | .unary op operand, next => by
    rcases unary_forms op operand with ⟨hop, condition, yes, no, hoperand⟩ |
      ⟨rfl, elements, rfl⟩ | ⟨hconditional, hconversion⟩
    · -- only the chosen branch goes on
      have hyes := evalThen_eq_bind yes next
      have hno := evalThen_eq_bind no next
      rw [hop, hoperand]
      simp only [evalThen, bind_assoc]
      refine bind_congr fun c => bind_congr fun b => ?_
      cases b with
      | true => exact hyes
      | false => exact hno
    · -- only the operand of a conversion is evaluated, and its units are names
      by_cases hform : ∃ operand source target, elements = [operand, .var source, .var target]
      · obtain ⟨operand, source, target, rfl⟩ := hform
        simp only [evalThen]
        cases s.converter with
        | none => rfl
        | some f => simp only [bind_assoc, ok_bind]
      · have herror := fun next => s.evalThen_conversion_error enter locals
          (fun operand source target h => hform ⟨operand, source, target, h⟩) next
        rw [herror, herror, error_bind]
    · -- the operation is applied to a value
      have hunary := fun next => s.evalThen_unary enter locals next hconditional hconversion
      rw [hunary, hunary .ok]
      simp only [bind_assoc, ok_bind]
termination_by t => sizeOf t
decreasing_by
  all_goals simp [*]
  all_goals omega

/-- A binary operation on two values. -/
theorem evalThen_binary (op : BinaryOp) (left right : Term) (next : Value → Except Fault Value) :
    s.evalThen enter locals (.binary op left right) next =
      s.evalThen enter locals left .ok >>= fun v =>
        s.evalThen enter locals right .ok >>= fun w => op.apply v w >>= next :=
  s.evalThen_eq_bind enter locals left _

end Abacus.Scope

namespace Abacus

/-- **Induction along an evaluation.** The cases are the forms of a term that an evaluation tells
apart: a choice and a conversion look into the list under their operator, which is no operand
there. -/
@[elab_as_elim]
theorem Term.induction {motive : Term → Prop}
    (literal : ∀ v, motive (.literal v))
    (var : ∀ x, motive (.var x))
    (conditional : ∀ condition yes no, motive condition → motive yes → motive no →
      motive (.unary .conditional (.vector [condition, yes, no])))
    (conversion : ∀ operand source target, motive operand →
      motive (.unary .conversion (.vector [operand, .var source, .var target])))
    (conversionError : ∀ elements,
      (∀ operand source target, elements ≠ [operand, .var source, .var target]) →
      motive (.unary .conversion (.vector elements)))
    (unary : ∀ op operand,
      (op = .conditional → ∀ condition yes no, operand ≠ .vector [condition, yes, no]) →
      (op = .conversion → ∀ elements, operand ≠ .vector elements) →
      motive operand → motive (.unary op operand))
    (binary : ∀ op left right, motive left → motive right → motive (.binary op left right))
    (vector : ∀ elements, (∀ t ∈ elements, motive t) → motive (.vector elements))
    (matrix : ∀ rows, (∀ row ∈ rows, ∀ t ∈ row, motive t) → motive (.matrix rows))
    (call : ∀ name arguments, (∀ t ∈ arguments, motive t) → motive (.call name arguments))
    (assign : ∀ name t, motive (.assign name t)) : ∀ t, motive t := by
  intro t
  induction hsize : sizeOf t using Nat.strongRecOn generalizing t with
  | _ n ih =>
    -- what is part of the term is smaller
    have smaller : ∀ u, sizeOf u < sizeOf t → motive u := fun u hu => ih _ (hsize ▸ hu) u rfl
    cases t with
    | literal v => exact literal v
    | var x => exact var x
    | binary op left right =>
      have hsizes : sizeOf left < sizeOf (Term.binary op left right) ∧
          sizeOf right < sizeOf (Term.binary op left right) := by
        simp only [Term.binary.sizeOf_spec]
        omega
      exact binary op left right (smaller left hsizes.1) (smaller right hsizes.2)
    | vector elements =>
      refine vector elements fun u hu => smaller u ?_
      have := List.sizeOf_lt_of_mem hu
      simp only [Term.vector.sizeOf_spec]
      omega
    | matrix rows =>
      refine matrix rows fun row hrow u hu => smaller u ?_
      have := List.sizeOf_lt_of_mem hu
      have := List.sizeOf_lt_of_mem hrow
      simp only [Term.matrix.sizeOf_spec]
      omega
    | call name arguments =>
      refine call name arguments fun u hu => smaller u ?_
      have := List.sizeOf_lt_of_mem hu
      simp only [Term.call.sizeOf_spec]
      omega
    | assign name u => exact assign name u
    | unary op operand =>
      have hsize : sizeOf operand < sizeOf (Term.unary op operand) := by
        simp only [Term.unary.sizeOf_spec]
        omega
      -- the elements of a vector are smaller than the operation that takes it
      have helement : ∀ {es : List Term}, operand = .vector es → ∀ u ∈ es, motive u := by
        rintro es rfl u hu
        refine smaller u (Nat.lt_trans ?_ hsize)
        have := List.sizeOf_lt_of_mem hu
        simp only [Term.vector.sizeOf_spec]
        omega
      rcases Scope.unary_forms op operand with ⟨rfl, condition, yes, no, rfl⟩ |
        ⟨rfl, elements, rfl⟩ | ⟨hconditional, hconversion⟩
      · have hparts := helement rfl
        exact conditional condition yes no (hparts condition (by simp)) (hparts yes (by simp))
          (hparts no (by simp))
      · by_cases hform : ∃ operand source target, elements = [operand, .var source, .var target]
        · obtain ⟨operand, source, target, rfl⟩ := hform
          exact conversion operand source target (helement rfl operand (by simp))
        · exact conversionError elements fun operand source target heq =>
            hform ⟨operand, source, target, heq⟩
      · exact unary op operand hconditional hconversion (smaller operand hsize)

end Abacus
