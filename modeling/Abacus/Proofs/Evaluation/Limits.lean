import Abacus.Proofs.Evaluation.Continuation
import Abacus.Session

/-!
# Limits on calls only cut evaluations off

How deep calls may nest is a setting. Under a lower limit a term is evaluated as under a higher one,
or the evaluation reaches the lower limit and ends with the fault that says so
(`Session.evaluateTerm_limited`). It never ends with another value or another fault: nothing that
stands around a call goes on after a fault, be it an operation, a list, an argument or a choice.

`UpToDepth` relates the two evaluations, and a computation that starts with related ones is related
again (`UpToDepth.bind`). A call leaves the term for a body that is bound to a name, so there are
two inductions. The one on the term (`Scope.upToDepth_evalThen`) takes for granted what calls do,
and the one on the number of calls that are left (`Scope.upToDepth_evalWithin`) provides that.
-/

namespace Abacus

/-! ### Computations that a limit cuts off -/

/-- The first computation is cut off at a limit on calls, or both have the same outcome. -/
def UpToDepth {α : Type} (limit : Nat) (e e' : Except Fault α) : Prop :=
  e = .error (.callDepth limit) ∨ e = e'

namespace UpToDepth

variable {α β : Type} {limit : Nat}

theorem refl (e : Except Fault α) : UpToDepth limit e e := .inr rfl

theorem cut (e' : Except Fault α) : UpToDepth limit (.error (.callDepth limit)) e' := .inl rfl

/-- A fault of the first part is the fault of the whole. -/
theorem bind {e e' : Except Fault α} {f f' : α → Except Fault β} (h : UpToDepth limit e e')
    (hf : ∀ a, UpToDepth limit (f a) (f' a)) : UpToDepth limit (e >>= f) (e' >>= f') := by
  rcases h with rfl | rfl
  · exact .cut _
  · cases e with
    | error fault => exact .refl _
    | ok a => exact hf a

end UpToDepth

/-! ### Terms -/

namespace Scope

/-- The scope with another limit on calls. -/
def limited (s : Scope) (limit : Nat) : Scope :=
  { s with settings := { s.settings with maxDepth := limit } }

variable (s : Scope) (limit limit' : Nat)

@[simp] theorem lookup?_limited (locals : Bindings) (x : String) :
    (s.limited limit).lookup? locals x = s.lookup? locals x := rfl

@[simp] theorem converter_limited : (s.limited limit).converter = s.converter := rfl

@[simp] theorem maxDepth_limited : (s.limited limit).settings.maxDepth = limit := rfl

/-- Operators do not consult the limit. -/
theorem apply_limited (op : UnaryOp) (v : Value) :
    op.apply (s.limited limit).operationContext v = op.apply s.operationContext v := by
  cases op <;> rfl

/-- What the second scope does in a call is what the first does, up to the limit of the first. Where
the first allows no call, the second may do anything. -/
def EntersUpToDepth (limit : Nat) : Option Enter → Option Enter → Prop
  | none, _ => True
  | some g, some g' => ∀ f parameters, UpToDepth limit (g f parameters) (g' f parameters)
  | some _, none => False

variable {s limit limit'} {enter enter' : Option Enter} {locals : Bindings}

theorem upToDepth_evalElements {ts : List Term}
    (h : ∀ t ∈ ts, UpToDepth limit ((s.limited limit).evalThen enter locals t .ok)
      ((s.limited limit').evalThen enter' locals t .ok)) :
    UpToDepth limit ((s.limited limit).evalElements enter locals ts)
      ((s.limited limit').evalElements enter' locals ts) := by
  induction ts with
  | nil => exact .refl _
  | cons t ts ih =>
    obtain ⟨ht, hts⟩ := List.forall_mem_cons.1 h
    exact ht.bind fun v => (ih hts).bind fun vs => .refl _

theorem upToDepth_evalRows {rows : List (List Term)}
    (h : ∀ row ∈ rows, ∀ t ∈ row, UpToDepth limit ((s.limited limit).evalThen enter locals t .ok)
      ((s.limited limit').evalThen enter' locals t .ok)) :
    UpToDepth limit ((s.limited limit).evalRows enter locals rows)
      ((s.limited limit').evalRows enter' locals rows) := by
  induction rows with
  | nil => exact .refl _
  | cons row rows ih =>
    obtain ⟨hrow, hrows⟩ := List.forall_mem_cons.1 h
    exact (upToDepth_evalElements hrow).bind fun vs => (ih hrows).bind fun vss => .refl _

/-- The induction on the term. What is called may be defined anywhere, so that what calls do is
given. -/
theorem upToDepth_evalThen (henter : EntersUpToDepth limit enter enter') (t : Term) :
    UpToDepth limit ((s.limited limit).evalThen enter locals t .ok)
      ((s.limited limit').evalThen enter' locals t .ok) := by
  induction t using Term.induction with
  | literal v => exact .refl _
  | var x =>
    simp only [evalThen, lookup?_limited]
    exact .refl _
  | conditional condition yes no ihcondition ihyes ihno =>
    simp only [evalThen]
    refine ihcondition.bind fun c => (UpToDepth.refl _).bind fun b => ?_
    -- only the chosen branch is evaluated
    cases b with
    | true => exact ihyes
    | false => exact ihno
  | conversion operand source target ih =>
    simp only [evalThen, converter_limited]
    cases s.converter with
    | none => exact .refl _
    | some f => exact ih.bind fun v => .refl _
  | conversionError elements hform =>
    rw [evalThen_conversion_error _ _ _ hform, evalThen_conversion_error _ _ _ hform]
    exact .refl _
  | unary op operand hconditional hconversion ih =>
    rw [evalThen_unary _ _ _ .ok hconditional hconversion,
      evalThen_unary _ _ _ .ok hconditional hconversion]
    refine ih.bind fun v => ?_
    rw [apply_limited, apply_limited]
    exact .refl _
  | binary op left right ihleft ihright =>
    rw [evalThen_binary, evalThen_binary]
    exact ihleft.bind fun v => ihright.bind fun w => .refl _
  | vector elements ih =>
    simp only [evalThen]
    exact (upToDepth_evalElements ih).bind fun vs => .refl _
  | matrix rows ih =>
    simp only [evalThen]
    exact (upToDepth_evalRows ih).bind fun vss => .refl _
  | call name arguments ih =>
    simp only [evalThen, lookup?_limited, maxDepth_limited]
    split
    · exact .refl _
    · next f _ =>
      split
      · exact .refl _
      · -- here the limits differ: the first may be reached where the second is not
        cases enter with
        | none => exact .cut _
        | some g =>
          cases enter' with
          | none => cases henter
          | some g' =>
            refine (upToDepth_evalElements ih).bind fun vs => ?_
            exact (henter f _).bind fun v => .refl _
    · exact .refl _
  | assign name t =>
    simp only [evalThen]
    exact .refl _

/-- The induction on the calls that are left, of which the second evaluation has as many or more.
The body of a function is evaluated with one call less on both sides. -/
theorem upToDepth_evalWithin {calls calls' : Nat} (h : calls ≤ calls') (t : Term) :
    UpToDepth limit ((s.limited limit).evalWithin calls locals t)
      ((s.limited limit').evalWithin calls' locals t) := by
  induction calls generalizing calls' locals t with
  | zero =>
    -- no call is left to the first evaluation
    have hnone : ∀ enter', EntersUpToDepth limit none enter' := fun _ => trivial
    cases calls' with
    | zero => exact upToDepth_evalThen (hnone _) t
    | succ calls' => exact upToDepth_evalThen (hnone _) t
  | succ calls ih =>
    obtain ⟨calls', rfl⟩ : ∃ n, calls' = n + 1 := ⟨calls' - 1, by omega⟩
    refine upToDepth_evalThen ?_ t
    intro f parameters
    exact ih (Nat.le_of_succ_le_succ h) f.body

theorem upToDepth_eval (h : limit ≤ limit') (t : Term) :
    UpToDepth limit ((s.limited limit).eval t) ((s.limited limit').eval t) :=
  upToDepth_evalWithin h t

end Scope

/-! ### Sessions -/

namespace Session

/-- The session with another limit on calls. -/
def limited (s : Session) (limit : Nat) : Session :=
  { s with settings := { s.settings with maxDepth := limit } }

theorem scope_limited (s : Session) (limit : Nat) :
    (s.limited limit).scope = s.scope.limited limit := rfl

theorem upToDepth_valueOf (s : Session) {limit limit' : Nat} (h : limit ≤ limit') (t : Term) :
    UpToDepth limit ((s.limited limit).valueOf t) ((s.limited limit').valueOf t) := by
  have heval := fun u => Scope.upToDepth_eval (s := s.scope) h u
  unfold valueOf
  simp only [scope_limited]
  split
  · -- a function that is assigned is not evaluated
    exact .refl _
  · exact (heval _).bind fun v => .refl _
  · exact (heval _).bind fun v => .refl _

theorem finish_limited (s : Session) (limit : Nat) (name : Option String) (v : Value) :
    (s.limited limit).finish name v = (s.finish name v).limited limit := by
  cases name <;> rfl

/-- **Limits on calls only cut evaluations off.** Let two sessions differ only in how deep calls may
nest. Where the limit is lower, the evaluation of a term reaches it and changes nothing, or it ends
as where the limit is higher: with the same value or the same fault, and with the same bindings. -/
theorem evaluateTerm_limited (s : Session) (t : Term) {limit limit' : Nat} (h : limit ≤ limit') :
    let lower := (s.limited limit).evaluateTerm t
    let higher := (s.limited limit').evaluateTerm t
    lower = (.error (.callDepth limit), s.limited limit) ∨
      lower.1 = higher.1 ∧ lower.2 = higher.2.limited limit := by
  intro lower higher
  rcases s.upToDepth_valueOf h t with hcut | heq
  · left
    simp only [lower, evaluateTerm, hcut]
  · right
    simp only [lower, higher, evaluateTerm, heq]
    cases (s.limited limit').valueOf t with
    | error fault => exact ⟨rfl, rfl⟩
    | ok r =>
      refine ⟨rfl, ?_⟩
      simp only [finish_limited]
      rfl

/-- A function that counts down from two calls itself twice. Two nested calls are too few for it,
three are enough, and with four it answers the same. -/
theorem evaluateTerm_limited_countdown :
    let f : Definition := ⟨"f", ["n"], .unary .conditional (.vector
      [.binary (.relation .less) (.literal (.ofInt 0)) (.var "n"),
        .call "f" [.binary (.arith .sub) (.var "n") (.literal (.ofInt 1))], .var "n"])⟩
    let s := (start {}).bind "f" (.function f)
    let t : Term := .call "f" [.literal (.ofInt 2)]
    (2 ≤ 3 ∧ ((s.limited 2).evaluateTerm t).1.isOk = false ∧
        (s.limited 2).evaluateTerm t = (.error (.callDepth 2), s.limited 2)) ∧
      3 ≤ 4 ∧ ((s.limited 3).evaluateTerm t).1.isOk ∧
        ((s.limited 3).evaluateTerm t).1 = ((s.limited 4).evaluateTerm t).1 := by
  intro f s t
  have hlow : ((s.limited 2).evaluateTerm t).1.isOk = false := by decide +kernel
  have henough : ((s.limited 3).evaluateTerm t).1.isOk = true := by decide +kernel
  refine ⟨⟨by decide, hlow, ?_⟩, by decide, henough, ?_⟩
  · rcases evaluateTerm_limited s t (show 2 ≤ 3 by decide) with hcut | ⟨heq, -⟩
    · exact hcut
    · -- with three calls there is a value
      rw [heq, henough] at hlow
      cases hlow
  · rcases evaluateTerm_limited s t (show 3 ≤ 4 by decide) with hcut | ⟨heq, -⟩
    · rw [hcut] at henough
      cases henough
    · exact heq

end Session

end Abacus
