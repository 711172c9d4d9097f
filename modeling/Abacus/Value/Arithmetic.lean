import Abacus.Value.Coercion

/-!
# Arithmetic of values

One operation on numbers extends to all values. Two fractions combine exactly and fall back to
doubles where the exact result is missing; two percentages combine on their magnitudes; all other
scalars combine as doubles. A scalar combines with each element of a structure. Two structures
combine element by element, the smaller one padded with zeros; next to a matrix a vector is the
matrix of its rows. Functions do not combine with anything.
-/

namespace Abacus

/-- The results of a list of computations, or the first fault among them. -/
def gather {α : Type} : List (Except Fault α) → Except Fault (List α)
  | [] => .ok []
  | r :: rs => do
    let a ← r
    let as ← gather rs
    return a :: as

/-- An arithmetic operation on doubles. -/
def Arith.onDoubles : Arith → Float → Float → Float
  | .add, x, y => x + y
  | .sub, x, y => x - y
  | .mul, x, y => x * y
  | .div, x, y => x / y
  | .pow, x, y => x.pow y
  | .rem, x, y => Binary64.remainder x y

namespace Value

/-- Arithmetic of two scalars. -/
def arithScalars (op : Arith) : Value → Value → Except Fault Value
  | percent x, percent y => .ok (percent (op.onDoubles x y))
  | rational p, rational q =>
    .ok (match Fraction.arith? op p q with
      | some exact => rational exact
      | none => double (op.onDoubles p.toFloat q.toFloat))
  | v, w => do return double (op.onDoubles (← v.toNumber) (← w.toNumber))

/-- The number of columns of a matrix, the length of its longest row. -/
def columns (rows : List (List Value)) : Nat := rows.foldl (fun n row => max n row.length) 0

/-- One for vectors and zero for all other values. -/
def rank : Value → Nat
  | vector _ => 1
  | _ => 0

@[simp] theorem rank_vector (xs : List Value) : (vector xs).rank = 1 := rfl

@[simp] theorem rank_matrix (xs : List (List Value)) : (matrix xs).rank = 0 := rfl

theorem rank_le_one (v : Value) : v.rank ≤ 1 := by
  cases v <;> simp [rank]

/-- Arithmetic of two values. -/
def arith (op : Arith) : Value → Value → Except Fault Value
  | v, function f => .error (.arithMismatch op v.kind (function f).kind)
  | function f, w => .error (.arithMismatch op (function f).kind w.kind)
  | vector xs, vector ys =>
    vector <$> gather ((List.range (max xs.length ys.length)).map fun i =>
      arith op (xs.getD i zero) (ys.getD i zero))
  | matrix xs, matrix ys =>
    matrix <$> gather ((List.range (max xs.length ys.length)).map fun i =>
      gather ((List.range (max (columns xs) (columns ys))).map fun j =>
        arith op ((xs.getD i []).getD j zero) ((ys.getD i []).getD j zero)))
  | matrix xs, vector ys => arith op (matrix xs) (matrix (toRows ys))
  | vector xs, matrix ys => arith op (matrix (toRows xs)) (matrix ys)
  | v, vector ys => vector <$> gather (ys.map fun y => arith op v y)
  | v, matrix ys => matrix <$> gather (ys.map fun row => gather (row.map fun y => arith op v y))
  | vector xs, w => vector <$> gather (xs.map fun x => arith op x w)
  | matrix xs, w => matrix <$> gather (xs.map fun row => gather (row.map fun x => arith op x w))
  | v, w => arithScalars op v w
termination_by v w => 2 * (v.depth + w.depth) + (v.rank + w.rank)
decreasing_by
  all_goals simp only [depth, rank_vector, rank_matrix]
  · have := depth_getD_le xs i
    have := depth_getD_le ys i
    have := rank_le_one (xs.getD i zero)
    have := rank_le_one (ys.getD i zero)
    omega
  · have := depthElements_getD_le xs i
    have := depth_getD_le (xs.getD i []) j
    have := depthElements_getD_le ys i
    have := depth_getD_le (ys.getD i []) j
    have := rank_le_one ((xs.getD i []).getD j zero)
    have := rank_le_one ((ys.getD i []).getD j zero)
    omega
  · have := depthRows_toRows_le ys
    omega
  · have := depthRows_toRows_le xs
    omega
  · have := depth_le_of_mem ‹y ∈ ys›
    have := rank_le_one y
    omega
  · have := depth_le_of_mem ‹y ∈ row›
    have := depthElements_le_of_mem ‹row ∈ ys›
    have := rank_le_one y
    omega
  · have := depth_le_of_mem ‹x ∈ xs›
    have := rank_le_one x
    omega
  · have := depth_le_of_mem ‹x ∈ row›
    have := depthElements_le_of_mem ‹row ∈ xs›
    have := rank_le_one x
    omega

end Value

end Abacus
