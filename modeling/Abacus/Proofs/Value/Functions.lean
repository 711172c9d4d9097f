import Abacus.Proofs.Value.Hereditary

/-!
# Where functions come from

Functions are values: they are stored in vectors, chosen by conditions and passed to other
functions. `Value.functions` lists all that occur in a value, also those in the literals of the
bodies of others. No operation makes a new one: what all functions in a value have in common is kept
(`Value.hereditary_functions`), be it that they occur in an operand (`UnaryOp.functions_apply`) or
that there are none (`BinaryOp.isData_apply`).
-/

namespace Abacus

mutual

/-- The functions that occur in a value at any depth. -/
def Value.functions : Value → List Definition
  | .vector elements => Value.functionsOfElements elements
  | .matrix rows => Value.functionsOfRows rows
  | .function f => f.functions
  | _ => []

/-- The functions that occur in a list of values. -/
def Value.functionsOfElements : List Value → List Definition
  | [] => []
  | v :: vs => v.functions ++ Value.functionsOfElements vs

/-- The functions that occur in rows of values. -/
def Value.functionsOfRows : List (List Value) → List Definition
  | [] => []
  | row :: rows => Value.functionsOfElements row ++ Value.functionsOfRows rows

/-- A function and those that occur in its body. -/
def Definition.functions : Definition → List Definition
  | ⟨name, parameters, body⟩ => ⟨name, parameters, body⟩ :: body.functions

/-- The functions that occur in the literals of a term. -/
def Term.functions : Term → List Definition
  | .literal v => v.functions
  | .var _ => []
  | .unary _ operand => operand.functions
  | .binary _ left right => left.functions ++ right.functions
  | .vector elements => Term.functionsOfElements elements
  | .matrix rows => Term.functionsOfRows rows
  | .call _ arguments => Term.functionsOfElements arguments
  | .assign _ value => value.functions

/-- The functions that occur in a list of terms. -/
def Term.functionsOfElements : List Term → List Definition
  | [] => []
  | t :: ts => t.functions ++ Term.functionsOfElements ts

/-- The functions that occur in rows of terms. -/
def Term.functionsOfRows : List (List Term) → List Definition
  | [] => []
  | row :: rows => Term.functionsOfElements row ++ Term.functionsOfRows rows

end

namespace Value

theorem mem_functionsOfElements {f : Definition} {vs : List Value} :
    f ∈ functionsOfElements vs ↔ ∃ v ∈ vs, f ∈ v.functions := by
  induction vs with
  | nil => simp [functionsOfElements]
  | cons v vs ih => simp [functionsOfElements, ih]

theorem mem_functionsOfRows {f : Definition} {rows : List (List Value)} :
    f ∈ functionsOfRows rows ↔ ∃ row ∈ rows, ∃ v ∈ row, f ∈ v.functions := by
  induction rows with
  | nil => simp [functionsOfRows]
  | cons row rows ih => simp [functionsOfRows, mem_functionsOfElements, ih]

theorem mem_functions_vector {f : Definition} {vs : List Value} :
    f ∈ (vector vs).functions ↔ ∃ v ∈ vs, f ∈ v.functions := by
  rw [functions, mem_functionsOfElements]

theorem mem_functions_matrix {f : Definition} {rows : List (List Value)} :
    f ∈ (matrix rows).functions ↔ ∃ row ∈ rows, ∃ v ∈ row, f ∈ v.functions := by
  rw [functions, mem_functionsOfRows]

end Value

namespace Term

theorem mem_functionsOfElements {f : Definition} {ts : List Term} :
    f ∈ functionsOfElements ts ↔ ∃ t ∈ ts, f ∈ t.functions := by
  induction ts with
  | nil => simp [functionsOfElements]
  | cons t ts ih => simp [functionsOfElements, ih]

theorem mem_functionsOfRows {f : Definition} {rows : List (List Term)} :
    f ∈ functionsOfRows rows ↔ ∃ row ∈ rows, ∃ t ∈ row, f ∈ t.functions := by
  induction rows with
  | nil => simp [functionsOfRows]
  | cons row rows ih => simp [functionsOfRows, mem_functionsOfElements, ih]

end Term

namespace Value

/-! ### What functions in values have in common -/

/-- A value in which no function occurs. -/
def IsData (v : Value) : Prop := v.functions = []

theorem isData_iff {v : Value} : v.IsData ↔ ∀ f ∈ v.functions, False :=
  List.eq_nil_iff_forall_not_mem

/-- What all functions in a value have in common is kept by operations. -/
theorem hereditary_functions (C : Definition → Prop) :
    Hereditary fun v => ∀ f ∈ v.functions, C f where
  vector := by
    simp only [mem_functions_vector]
    grind
  matrix := by
    simp only [mem_functions_matrix]
    grind
  double _ := nofun
  percent _ := nofun
  boolean _ := nofun
  rational _ := nofun
  neg _ := nofun
  abs _ := nofun
  rounding _ _ _ := nofun

end Value

/-! ### Operators -/

/-- **Unary operations make no functions.** -/
theorem UnaryOp.functions_apply {op : UnaryOp} {context : OperationContext} {v w : Value}
    (h : op.apply context v = .ok w) : w.functions ⊆ v.functions := by
  have hfunctions := Value.hereditary_functions (· ∈ v.functions)
  exact (UnaryOp.ends_apply hfunctions op context fun _ => id).of_ok h

/-- **Binary operations yield no functions.** -/
theorem BinaryOp.isData_apply {op : BinaryOp} {v w u : Value} (h : op.apply v w = .ok u) :
    u.IsData := by
  have hnone := Value.hereditary_functions fun _ => False
  exact Value.isData_iff.2 ((BinaryOp.ends_apply hnone op v w).of_ok h)

end Abacus
