import Abacus.Proofs.Evaluation.Folding

/-!
# Operators on structures

Most unary operators work on each element of a structure by itself (`Operator.isElementwise_apply`).
What such an operator yields has the shape of the operand, and its leaves are what the operator
yields on the leaves of the operand. If there is a leaf on which it fails, then it fails on the
structure in the way in which it fails on the first such leaf.

Shape and leaves are two views of a value that determine it. The induction over a structure is about
`mapLeaves` (`Value.ends_mapLeaves`), and nothing is assumed of the function that is mapped but that
it yields scalars: a structure in the place of a leaf would change the shape. Functions of angles go
another way and take their operand as a vector first, which makes no difference but for the wording
of a fault (`Value.sameKind_mapAsVector`).
-/

namespace Abacus

theorem SameKind.ok_iff {α : Type} {e e' : Except Fault α} (h : SameKind e e') {a : α} :
    e = .ok a ↔ e' = .ok a := by
  obtain ⟨b, rfl, rfl⟩ | ⟨_, _, rfl, rfl, -⟩ := h.ok_or_error
  · rfl
  · exact iff_of_false nofun nofun

/-! ### Shapes and leaves -/

/-- The shape of a value, without what is at its leaves. -/
inductive Shape
  | leaf
  | vector (elements : List Shape)
  | matrix (rows : List (List Shape))

namespace Value

mutual

/-- The shape of a value. -/
def shape : Value → Shape
  | vector elements => .vector (shapeElements elements)
  | matrix rows => .matrix (shapeRows rows)
  | _ => .leaf

/-- The shapes of a list of values. -/
def shapeElements : List Value → List Shape
  | [] => []
  | v :: vs => v.shape :: shapeElements vs

/-- The shapes of rows of values. -/
def shapeRows : List (List Value) → List (List Shape)
  | [] => []
  | row :: rows => shapeElements row :: shapeRows rows

end

mutual

/-- The scalars and functions in a value, from left to right and from top to bottom. -/
def atoms : Value → List Value
  | vector elements => atomsOfElements elements
  | matrix rows => atomsOfRows rows
  | v => [v]

/-- The scalars and functions in a list of values. -/
def atomsOfElements : List Value → List Value
  | [] => []
  | v :: vs => v.atoms ++ atomsOfElements vs

/-- The scalars and functions in rows of values. -/
def atomsOfRows : List (List Value) → List Value
  | [] => []
  | row :: rows => atomsOfElements row ++ atomsOfRows rows

end

/-! ### Element by element -/

/-- The fault with which an operation fails on the first value of a list on which it fails. -/
inductive FirstFault (F : Value → Except Fault Value) : List Value → Fault → Prop
  | head {x : Value} {fault : Fault} (h : F x = .error fault) (xs : List Value) :
      FirstFault F (x :: xs) fault
  | tail {x y : Value} {xs : List Value} {fault : Fault} (hx : F x = .ok y)
      (h : FirstFault F xs fault) : FirstFault F (x :: xs) fault

/-- An operation that works on each element of a structure by itself. -/
structure IsElementwise (F : Value → Except Fault Value) : Prop where
  /-- If it succeeds on all leaves, it succeeds, keeps the shape and yields what it yields on the
  leaves. -/
  ok {v : Value} (h : ∀ x ∈ v.atoms, ∃ y, F x = .ok y) :
    ∃ w, F v = .ok w ∧ w.shape = v.shape ∧
      List.Forall₂ (fun x y => F x = .ok y) v.atoms w.atoms
  /-- Otherwise it fails in the way in which it fails on the first leaf on which it fails. -/
  error {v : Value} {fault : Fault} (h : FirstFault F v.atoms fault) :
    ∃ fault', F v = .error fault' ∧ fault'.kind = fault.kind
  /-- It fails on functions. -/
  function (f : Definition) : ∃ fault, F (.function f) = .error fault ∧ fault.kind = .typeMismatch

namespace FirstFault

variable {F G : Value → Except Fault Value} {xs ys : List Value} {fault fault' : Fault}

theorem append_right (h : FirstFault F xs fault) (ys : List Value) :
    FirstFault F (xs ++ ys) fault := by
  induction h with
  | head h xs => exact .head h _
  | tail hx _ ih => exact .tail hx ih

theorem append_left {zs : List Value} (hxs : List.Forall₂ (fun x z => F x = .ok z) xs zs)
    (h : FirstFault F ys fault) : FirstFault F (xs ++ ys) fault := by
  induction hxs with
  | nil => exact h
  | cons hx _ ih => exact .tail hx ih

theorem exists_mem (h : FirstFault F xs fault) : ∃ x ∈ xs, F x = .error fault := by
  induction h with
  | head h xs => exact ⟨_, List.mem_cons_self, h⟩
  | tail _ _ ih =>
    obtain ⟨x, hx, hfault⟩ := ih
    exact ⟨x, List.mem_cons_of_mem _ hx, hfault⟩

/-- Where there is a first fault, the operation does not succeed on all values. -/
theorem not_forall₂ (h : FirstFault F xs fault) :
    ¬ List.Forall₂ (fun x y => F x = .ok y) xs ys := by
  induction h generalizing ys with
  | head h xs =>
    rintro (_ | ⟨hx, -⟩)
    cases h.symm.trans hx
  | tail _ _ ih =>
    rintro (_ | ⟨-, hxs⟩)
    exact ih hxs

theorem eq (h : FirstFault F xs fault) (h' : FirstFault F xs fault') : fault = fault' := by
  induction h with
  | head h xs =>
    cases h' with
    | head h' => exact Except.error.inj (h.symm.trans h')
    | tail hx => cases h.symm.trans hx
  | tail hx _ ih =>
    cases h' with
    | head h' => cases hx.symm.trans h'
    | tail _ h' => exact ih h'

/-- Operations that differ in the wording of faults fail first on the same value. -/
theorem of_sameKind (hFG : ∀ x, SameKind (F x) (G x)) (h : FirstFault F xs fault) :
    ∃ fault', FirstFault G xs fault' ∧ fault.kind = fault'.kind := by
  induction h with
  | @head x fault h xs =>
    obtain ⟨y, hy, -⟩ | ⟨_, fault', hfault, hfault', hkind⟩ := (hFG x).ok_or_error
    · cases h.symm.trans hy
    · obtain rfl := Except.error.inj (h.symm.trans hfault)
      exact ⟨fault', .head hfault' xs, hkind⟩
  | @tail x y _ _ hx _ ih =>
    obtain ⟨fault', h, hkind⟩ := ih
    obtain ⟨_, -, hy⟩ | ⟨fault, _, hfault, -⟩ := (hFG x).ok_or_error
    · exact ⟨fault', .tail hy h, hkind⟩
    · cases hx.symm.trans hfault

end FirstFault

/-! ### Mapping -/

/-- A function that yields scalars on scalars. -/
def YieldsScalars (g : Value → Except Fault Value) : Prop :=
  ∀ x : Value, x.isScalar → Ends (fun y => y.isScalar) (fun _ => True) (g x)

theorem shape_of_isScalar {v : Value} (h : v.isScalar) : v.shape = .leaf := by
  cases v with
  | vector vs => cases h
  | matrix rows => cases h
  | function f => cases h
  | _ => rfl

theorem atoms_of_isScalar {v : Value} (h : v.isScalar) : v.atoms = [v] := by
  cases v with
  | vector vs => cases h
  | matrix rows => cases h
  | function f => cases h
  | _ => rfl

namespace YieldsScalars

variable {g : Value → Except Fault Value}

theorem ends_scalar (hg : YieldsScalars g) {v : Value} (hv : v.isScalar)
    (hmap : v.mapLeaves g = g v) :
    Ends (fun w => w.shape = v.shape ∧
      List.Forall₂ (fun x y => x.mapLeaves g = .ok y) v.atoms w.atoms)
      (FirstFault (mapLeaves g) v.atoms) (v.mapLeaves g) := by
  rw [atoms_of_isScalar hv, shape_of_isScalar hv]
  cases hw : v.mapLeaves g with
  | error fault => exact .head hw []
  | ok w =>
    have hscalar : w.isScalar := (hg v hv).of_ok (hmap.symm.trans hw)
    refine ⟨shape_of_isScalar hscalar, ?_⟩
    rw [atoms_of_isScalar hscalar]
    exact .cons hw .nil

mutual

/-- What is mapped keeps its shape, and its leaves are mapped each by itself; a fault is that of the
first leaf that has one. -/
theorem ends_mapLeaves (hg : YieldsScalars g) : ∀ v : Value,
    Ends (fun w => w.shape = v.shape ∧
      List.Forall₂ (fun x y => x.mapLeaves g = .ok y) v.atoms w.atoms)
      (FirstFault (mapLeaves g) v.atoms) (v.mapLeaves g)
  | .vector vs => (ends_mapElements hg vs).map fun _ h => ⟨congrArg Shape.vector h.1, h.2⟩
  | .matrix rows => (ends_mapRows hg rows).map fun _ h => ⟨congrArg Shape.matrix h.1, h.2⟩
  | .function _ => .head rfl []
  | .double _ | .rational _ | .percent _ | .boolean _ => hg.ends_scalar rfl rfl

theorem ends_mapElements (hg : YieldsScalars g) : ∀ vs : List Value,
    Ends (fun ws => shapeElements ws = shapeElements vs ∧
      List.Forall₂ (fun x y => x.mapLeaves g = .ok y) (atomsOfElements vs) (atomsOfElements ws))
      (FirstFault (mapLeaves g) (atomsOfElements vs)) (mapElements g vs)
  | [] => ⟨rfl, .nil⟩
  | v :: vs => by
    -- a fault of the first element comes first, and one behind it only if it has none
    have hv := (ends_mapLeaves hg v).imp (fun _ => id) fun _ h =>
      h.append_right (atomsOfElements vs)
    refine hv.bind fun w hw => ?_
    have hvs := (ends_mapElements hg vs).imp (fun _ => id) fun _ => FirstFault.append_left hw.2
    refine hvs.bind fun ws hws => ⟨?_, List.rel_append hw.2 hws.2⟩
    rw [shapeElements, shapeElements, hw.1, hws.1]

theorem ends_mapRows (hg : YieldsScalars g) : ∀ rows : List (List Value),
    Ends (fun rows' => shapeRows rows' = shapeRows rows ∧
      List.Forall₂ (fun x y => x.mapLeaves g = .ok y) (atomsOfRows rows) (atomsOfRows rows'))
      (FirstFault (mapLeaves g) (atomsOfRows rows)) (mapRows g rows)
  | [] => ⟨rfl, .nil⟩
  | row :: rows => by
    have hrow := (ends_mapElements hg row).imp (fun _ => id) fun _ h =>
      h.append_right (atomsOfRows rows)
    refine hrow.bind fun ws hws => ?_
    have hrows := (ends_mapRows hg rows).imp (fun _ => id) fun _ => FirstFault.append_left hws.2
    refine hrows.bind fun rows' hrows' => ⟨?_, List.rel_append hws.2 hrows'.2⟩
    rw [shapeRows, shapeRows, hws.1, hrows'.1]

end

/-- What differs from a mapped function in the wording of faults only works element by element. -/
theorem isElementwise {F : Value → Except Fault Value} (hg : YieldsScalars g)
    (hF : ∀ v, SameKind (F v) (v.mapLeaves g)) : IsElementwise F where
  ok {v} h := by
    have hends := hg.ends_mapLeaves v
    cases hv : v.mapLeaves g with
    | error fault =>
      obtain ⟨x, hx, hfault⟩ := (hends.of_error hv).exists_mem
      obtain ⟨y, hy⟩ := h x hx
      cases ((hF x).ok_iff.1 hy).symm.trans hfault
    | ok w =>
      obtain ⟨hshape, hatoms⟩ := hends.of_ok hv
      exact ⟨w, (hF v).ok_iff.2 hv, hshape, hatoms.imp fun x y => (hF x).ok_iff.2⟩
  error {v fault} h := by
    obtain ⟨fault', hfirst, hkind⟩ := h.of_sameKind hF
    have hends := hg.ends_mapLeaves v
    obtain ⟨w, -, hw⟩ | ⟨fault'', _, hfault, hmap, hkind'⟩ := (hF v).ok_or_error
    · -- then all leaves would be mapped
      exact absurd (hends.of_ok hw).2 hfirst.not_forall₂
    · obtain rfl := (hends.of_error hmap).eq hfirst
      exact ⟨fault'', hfault, hkind'.trans hkind.symm⟩
  function f := by
    obtain ⟨_, -, hok⟩ | ⟨fault, _, hfault, hmap, hkind⟩ := (hF (.function f)).ok_or_error
    · cases hok
    · cases hmap
      exact ⟨fault, hfault, hkind⟩

end YieldsScalars

theorem mapAsVector_of_isScalar {g : Value → Except Fault Value} {v : Value} (h : v.isScalar) :
    v.mapAsVector g = v.mapLeaves g := by
  have hbind : ∀ k : List Value → Except Fault Value, (∀ w, k [w] = .ok w) →
      mapElements g [v] >>= k = v.mapLeaves g := by
    intro k hk
    rw [mapElements]
    cases v.mapLeaves g with
    | error fault => rfl
    | ok w => exact hk w
  cases v with
  | vector vs => cases h
  | matrix rows => cases h
  | function f => cases h
  | _ => exact hbind _ fun _ => rfl

theorem mapAsVector_vector (g : Value → Except Fault Value) (vs : List Value) :
    (vector vs).mapAsVector g = vector <$> mapElements g vs := by
  change (mapElements g vs >>= fun mapped => _) = _
  cases mapElements g vs with
  | error fault => rfl
  | ok ws =>
    -- a single element stays in its vector
    rcases ws with _ | ⟨w, _ | ⟨w', ws⟩⟩ <;> rfl

/-- To take a value as a vector first matters only for the wording of a fault. -/
theorem sameKind_mapAsVector (g : Value → Except Fault Value) (v : Value) :
    SameKind (v.mapAsVector g) (v.mapLeaves g) := by
  cases v with
  | vector vs => exact mapAsVector_vector g vs ▸ .refl _
  | matrix rows => exact .refl _
  | function f => rfl
  | _ =>
    rw [mapAsVector_of_isScalar rfl]
    exact .refl _

/-! ### Scalars -/

namespace YieldsScalars

/-- A scalar that is made of what a scalar is worth. -/
theorem ofNumber {f : Float → Value} (hf : ∀ x, (f x).isScalar) (v : Value) :
    Ends (fun w => w.isScalar) (fun _ => True) (do return f (← v.toNumber) : Except Fault Value) :=
  (Ends.of_true v.toNumber).bind fun x _ => hf x

theorem negateScalar : YieldsScalars Value.negateScalar := by
  intro v _
  unfold Value.negateScalar
  split
  · rfl
  · rfl
  · exact ofNumber (fun _ => rfl) v

theorem absScalar : YieldsScalars Value.absScalar := by
  intro v _
  unfold Value.absScalar
  split
  · rfl
  · rfl
  · exact ofNumber (fun _ => rfl) v

theorem signScalar : YieldsScalars Value.signScalar := by
  intro v _
  unfold Value.signScalar
  split
  · rfl
  · exact ofNumber (fun _ => rfl) v

theorem roundScalar (mode : Rounding) : YieldsScalars (Value.roundScalar mode) := by
  intro v _
  unfold Value.roundScalar
  split
  · rfl
  · exact ofNumber (fun _ => rfl) v

theorem notScalar : YieldsScalars Value.notScalar := fun v _ =>
  (Ends.of_true v.toBool).bind fun _ _ => rfl

theorem factorialScalar : YieldsScalars Value.factorialScalar := by
  intro v _
  refine (Ends.of_true v.toNatural).bind fun n _ => ?_
  change (factorial n).isScalar
  unfold factorial
  split
  · rfl
  · split <;> rfl

theorem rationalScalar (settings : Settings) : YieldsScalars (Value.rationalScalar settings) := by
  intro v _
  unfold Value.rationalScalar
  split
  · rfl
  · refine (Ends.of_true v.toNumber).bind fun x _ => ?_
    split
    · rfl
    · trivial

end YieldsScalars

end Value

/-! ### Operators -/

/-- The operations that take a structure as a whole. -/
def UnaryOp.structural : List UnaryOp :=
  [.sum, .count, .min, .max, .mean, .transpose, .conditional, .conversion]

open Value (IsElementwise YieldsScalars) in
/-- All other operations map a function on scalars. -/
theorem UnaryOp.isElementwise_of_not_structural {op : UnaryOp} (hop : op ∉ structural)
    (context : OperationContext) : IsElementwise (op.apply context) := by
  have hmap : ∀ {g : Value → Except Fault Value}, YieldsScalars g →
      IsElementwise fun v => v.mapLeaves g := fun hg => hg.isElementwise fun v => .refl _
  have hmapAsVector : ∀ {g : Value → Except Fault Value}, YieldsScalars g →
      IsElementwise fun v => v.mapAsVector g := fun hg =>
    hg.isElementwise (Value.sameKind_mapAsVector _)
  cases op with
  | plus => exact hmap fun v hv => hv
  | minus => exact hmap .negateScalar
  | not => exact hmap .notScalar
  | circular f => exact hmapAsVector fun v _ => YieldsScalars.ofNumber (fun _ => rfl) v
  | arc f => exact hmapAsVector fun v _ => YieldsScalars.ofNumber (fun _ => rfl) v
  | real f => exact hmap fun v _ => YieldsScalars.ofNumber (fun _ => rfl) v
  | abs => exact hmap .absScalar
  | sign => exact hmap .signScalar
  | rounding mode => exact hmap (.roundScalar mode)
  | factorial => exact hmap .factorialScalar
  | rational => exact hmap (.rationalScalar context.settings)
  | _ => exact absurd (by decide) hop

namespace Operator

/-- The operators that work on each element of a structure by itself. -/
def elementwise : List Operator :=
  [plus, minus, not, sin, cos, tan, asin, acos, atan, sinh, cosh, tanh, sqrt, cbrt, exp, ln, log10,
    log2, abs, sign, floor, ceil, round, trunc, fract, factorial, rational, degrees, radians]

theorem exists_unary?_of_mem_elementwise {o : Operator} (h : o ∈ elementwise) :
    ∃ op, o.unary? = some op ∧ op ∉ UnaryOp.structural := by
  have hall : ∀ o ∈ elementwise, o.unary?.any (· ∉ UnaryOp.structural) := by decide
  simpa [Option.any_eq_true] using hall o h

/-- **Operators on scalars extend to structures.** -/
theorem isElementwise_apply {o : Operator} (h : o ∈ elementwise) (context : OperationContext) :
    Value.IsElementwise fun v => o.apply context [v] := by
  obtain ⟨op, hop, hstructural⟩ := exists_unary?_of_mem_elementwise h
  simpa only [apply, hop] using UnaryOp.isElementwise_of_not_structural hstructural context

/-- The sine of a vector with one element, of a matrix with an empty row, and of a function behind a
scalar. -/
theorem isElementwise_apply_sin :
    let context : OperationContext := ⟨.degrees, {}⟩
    let v : Value := .vector [.vector [.zero], .matrix [[], [.ofInt 90]]]
    let u : Value := .vector [.zero, .vector [.function ⟨"f", [], .literal .zero⟩], .zero]
    sin ∈ elementwise ∧
      (∃ w, sin.apply context [v] = .ok w ∧
        w.shape = .vector [.vector [.leaf], .matrix [[], [.leaf]]] ∧
        List.Forall₂ (fun x y => sin.apply context [x] = .ok y) [.zero, .ofInt 90] w.atoms) ∧
      ∃ fault, sin.apply context [u] = .error fault ∧ fault.kind = .typeMismatch := by
  intro context v u
  have hsin : sin ∈ elementwise := by decide
  have hall : ∀ x ∈ v.atoms, ∃ y, sin.apply context [x] = .ok y :=
    List.forall_mem_cons.2 ⟨⟨_, rfl⟩, List.forall_mem_singleton.2 ⟨_, rfl⟩⟩
  -- the function is the second leaf, and the scalar in front of it has a sine
  have hfirst : Value.FirstFault (fun v => sin.apply context [v]) u.atoms (.functionAsVector "f") :=
    .tail (x := .zero) rfl (.head rfl [.zero])
  exact ⟨hsin, (isElementwise_apply hsin context).ok hall,
    (isElementwise_apply hsin context).error hfirst⟩

end Operator

end Abacus
