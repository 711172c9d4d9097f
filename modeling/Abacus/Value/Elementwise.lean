import Abacus.Value.Arithmetic

/-!
# Element by element

`mapLeaves` applies a function to every scalar of a structure and keeps the shape; `leaves` lists
the scalars from left to right and top to bottom. Functions are no elements.
-/

namespace Abacus.Value

mutual

/-- Applies `f` to every scalar of a value. -/
def mapLeaves (f : Value → Except Fault Value) : Value → Except Fault Value
  | vector elements => vector <$> mapElements f elements
  | matrix rows => matrix <$> mapRows f rows
  | function g => .error (.functionAsElement g.name)
  | double x => f (double x)
  | rational q => f (rational q)
  | percent magnitude => f (percent magnitude)
  | boolean b => f (boolean b)

/-- Applies `f` to every scalar of a list of values. -/
def mapElements (f : Value → Except Fault Value) : List Value → Except Fault (List Value)
  | [] => .ok []
  | v :: vs => do
    let w ← mapLeaves f v
    let ws ← mapElements f vs
    return w :: ws

/-- Applies `f` to every scalar of rows of values. -/
def mapRows (f : Value → Except Fault Value) : List (List Value) → Except Fault (List (List Value))
  | [] => .ok []
  | row :: rows => do
    let r ← mapElements f row
    let rs ← mapRows f rows
    return r :: rs

end

/-- Applies a function on doubles to every scalar. -/
def mapDoubles (f : Float → Float) (v : Value) : Except Fault Value :=
  v.mapLeaves fun x => do return double (f (← x.toNumber))

/-- Takes a value as a vector, applies `f` to every scalar, and takes the single element out again
if the value was a scalar. Matrices keep their shape. -/
def mapAsVector (f : Value → Except Fault Value) (v : Value) : Except Fault Value :=
  match v with
  | matrix _ => v.mapLeaves f
  | _ => do
    let mapped ← mapElements f (← v.toVector)
    match mapped, v.isScalar with
    | [single], true => return single
    | _, _ => return vector mapped

mutual

/-- The scalars of a value. -/
def leaves : Value → Except Fault (List Value)
  | vector elements => leavesOfElements elements
  | matrix rows => leavesOfRows rows
  | function f => .error (.functionReduced f.name)
  | double x => .ok [double x]
  | rational q => .ok [rational q]
  | percent magnitude => .ok [percent magnitude]
  | boolean b => .ok [boolean b]

/-- The scalars of a list of values. -/
def leavesOfElements : List Value → Except Fault (List Value)
  | [] => .ok []
  | v :: vs => do
    let xs ← leaves v
    let ys ← leavesOfElements vs
    return xs ++ ys

/-- The scalars of rows of values. -/
def leavesOfRows : List (List Value) → Except Fault (List Value)
  | [] => .ok []
  | row :: rows => do
    let xs ← leavesOfElements row
    let ys ← leavesOfRows rows
    return xs ++ ys

end

end Abacus.Value
