import Abacus.Value.Text

/-!
# Values in other roles

A value can stand in for a number, a vector or a matrix: structures count as the sum of their
elements, scalars as structures with one element, matrices as the vector of their rows. Functions
stand in for nothing. Two values are ordered exactly if both are fractions, and as numbers
otherwise.
-/

namespace Abacus.Value

/-! ### As a number -/

mutual

/-- What a value is worth as a double. The elements of a structure are added from the left, starting
with negative zero, which leaves every summand as it is. -/
def toNumber : Value → Except Fault Float
  | double x => .ok x
  | rational q => .ok q.toFloat
  | percent magnitude => .ok (magnitude / 100.0)
  | boolean b => .ok (if b then 1.0 else 0.0)
  | vector elements => addElements (-0.0) elements
  | matrix rows => addRows (-0.0) rows
  | function f => .error (.functionAsNumber f.name)

/-- A number increased by what values are worth. -/
def addElements (total : Float) : List Value → Except Fault Float
  | [] => .ok total
  | v :: vs => do addElements (total + (← v.toNumber)) vs

/-- A number increased by what rows of values are worth. -/
def addRows (total : Float) : List (List Value) → Except Fault Float
  | [] => .ok total
  | row :: rows => do addRows (← addElements total row) rows

end

/-- Whether a value counts as true: whether it is worth anything but zero. -/
def toBool (v : Value) : Except Fault Bool := do return (← v.toNumber) != 0.0

/-! ### As a vector or matrix -/

/-- A value as the list of its elements. -/
def toVector : Value → Except Fault (List Value)
  | vector elements => .ok elements
  | matrix rows => .ok (rows.map vector)
  | function f => .error (.functionAsVector f.name)
  | scalar => .ok [scalar]

/-- The elements of values that are all vectors. -/
def vectors? : List Value → Option (List (List Value))
  | [] => some []
  | vector elements :: vs => (vectors? vs).map (elements :: ·)
  | _ :: _ => none

/-- A list of elements as the rows of a matrix: one row for each if all are vectors, else one row
that holds them all. -/
def toRows (elements : List Value) : List (List Value) :=
  match elements with
  | [] => [[]]
  | _ => (vectors? elements).getD [elements]

/-- A value as the rows of a matrix. -/
def toMatrix : Value → Except Fault (List (List Value))
  | matrix rows => .ok rows
  | vector elements => .ok (toRows elements)
  | function f => .error (.functionAsMatrix f.name)
  | scalar => .ok [[scalar]]

/-! ### Order -/

/-- The order of two doubles; NaN has none. -/
def orderDoubles? (x y : Float) : Option Ordering :=
  if x < y then some .lt
  else if x == y then some .eq
  else if y < x then some .gt
  else none

/-- The order of two values. -/
def compare (v w : Value) : Except Fault Ordering :=
  match v, w with
  | rational p, rational q => .ok (p.compare q)
  | percent x, percent y =>
    match orderDoubles? x y with
    | some o => .ok o
    | none => .error (.unorderedPercents x y)
  | _, _ => do
    let x ← v.toNumber
    let y ← w.toNumber
    match orderDoubles? x y with
    | some o => .ok o
    | none => .error (.unordered x y)

/-! ### Depth -/

mutual

/-- How many levels of vectors and matrices a value has. -/
def depth : Value → Nat
  | vector elements => depthElements elements + 1
  | matrix rows => depthRows rows + 1
  | _ => 0

/-- The largest depth of a list of values. -/
def depthElements : List Value → Nat
  | [] => 0
  | v :: vs => max v.depth (depthElements vs)

/-- The largest depth of rows of values. -/
def depthRows : List (List Value) → Nat
  | [] => 0
  | row :: rows => max (depthElements row) (depthRows rows)

end

@[simp] theorem depth_zero : zero.depth = 0 := rfl

theorem depth_le_of_mem {v : Value} {vs : List Value} (h : v ∈ vs) :
    v.depth ≤ depthElements vs := by
  induction vs with
  | nil => cases h
  | cons w ws ih =>
    simp only [depthElements]
    cases h with
    | head => omega
    | tail _ h => have := ih h; omega

theorem depthElements_le_of_mem {row : List Value} {rows : List (List Value)} (h : row ∈ rows) :
    depthElements row ≤ depthRows rows := by
  induction rows with
  | nil => cases h
  | cons r rs ih =>
    simp only [depthRows]
    cases h with
    | head => omega
    | tail _ h => have := ih h; omega

theorem depth_getD_le (vs : List Value) (i : Nat) : (vs.getD i zero).depth ≤ depthElements vs := by
  rw [List.getD_eq_getElem?_getD]
  cases h : vs[i]? with
  | none => exact Nat.zero_le _
  | some v => exact depth_le_of_mem (List.mem_of_getElem? h)

theorem depthElements_getD_le (rows : List (List Value)) (i : Nat) :
    depthElements (rows.getD i []) ≤ depthRows rows := by
  rw [List.getD_eq_getElem?_getD]
  cases h : rows[i]? with
  | none => exact Nat.zero_le _
  | some row => exact depthElements_le_of_mem (List.mem_of_getElem? h)

theorem depthRows_vectors? {vs : List Value} {rows : List (List Value)}
    (h : vectors? vs = some rows) : depthRows rows ≤ depthElements vs := by
  induction vs generalizing rows with
  | nil => cases h; exact Nat.le_refl _
  | cons v vs ih =>
    cases v with
    | vector elements =>
      simp only [vectors?, Option.map_eq_some_iff] at h
      obtain ⟨rest, hr, rfl⟩ := h
      have := ih hr
      simp only [depthRows, depthElements, depth]
      omega
    | _ => simp [vectors?] at h

theorem depthRows_toRows_le (elements : List Value) :
    depthRows (toRows elements) ≤ depthElements elements := by
  unfold toRows
  split
  · simp [depthRows, depthElements]
  · cases h : vectors? elements with
    | none => simp [depthRows]
    | some rows => exact depthRows_vectors? h

end Abacus.Value
