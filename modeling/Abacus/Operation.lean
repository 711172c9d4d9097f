import Abacus.Settings
import Abacus.Value.Elementwise

/-!
# What operators do

The meanings of all operators on values. Most unary operators work on each element of a structure by
itself; sums, counts, extrema and means reduce a structure to one value; transposition and the
choice between two values work on a structure as a whole. Signs, magnitudes and rounding keep
fractions exact.
-/

namespace Abacus

/-- What operators may consult: the angle unit and the tolerances. -/
structure OperationContext where
  angleUnit : AngleUnit
  settings : Settings

/-! ### Functions on doubles -/

/-- The function of an angle in radians. -/
def Circular.onDouble : Circular → Float → Float
  | .sin => Float.sin
  | .cos => Float.cos
  | .tan => Float.tan

/-- The angle in radians. -/
def Circular.arcOnDouble : Circular → Float → Float
  | .sin => Float.asin
  | .cos => Float.acos
  | .tan => Float.atan

/-- The function on doubles. Angles are converted by one factor. -/
def RealFunction.onDouble : RealFunction → Float → Float
  | .sinh => Float.sinh
  | .cosh => Float.cosh
  | .tanh => Float.tanh
  | .sqrt => Float.sqrt
  | .cbrt => Binary64.cubeRoot
  | .exp => Float.exp
  | .ln => Float.log
  | .log10 => Float.log10
  | .log2 => Float.log2
  | .fract => Binary64.fract
  | .toDegrees => fun x => x * 57.29577951308232
  | .toRadians => fun x => x * (pi / 180.0)

/-- The integer that a double is rounded to, as a double. -/
def Rounding.onDouble : Rounding → Float → Float
  | .floor => Float.floor
  | .ceil => Float.ceil
  | .round => Float.round
  | .trunc => Binary64.trunc

/-- The integer that a fraction is rounded to. -/
def Rounding.onFraction : Rounding → Fraction → Fraction
  | .floor => Fraction.floor
  | .ceil => Fraction.ceil
  | .round => Fraction.round
  | .trunc => Fraction.trunc

/-- The sign of a double: zero for both zeros, NaN for NaN. -/
def signOfDouble (x : Float) : Float :=
  if x == 0.0 then 0.0 else if x.isNaN then x else if x < 0.0 then -1.0 else 1.0

/-! ### Single elements -/

namespace Value

/-- The negative of a scalar. -/
def negateScalar : Value → Except Fault Value
  | rational q => .ok (rational q.neg)
  | percent magnitude => .ok (percent (-magnitude))
  | v => do return double (-(← v.toNumber))

/-- The magnitude of a scalar. -/
def absScalar : Value → Except Fault Value
  | rational q => .ok (rational q.abs)
  | percent magnitude => .ok (percent magnitude.abs)
  | v => do return double (← v.toNumber).abs

/-- The sign of a scalar. -/
def signScalar : Value → Except Fault Value
  | rational q => .ok (ofInt q.sign)
  | v => do return double (signOfDouble (← v.toNumber))

/-- The integer that a scalar is rounded to. -/
def roundScalar (mode : Rounding) : Value → Except Fault Value
  | rational q => .ok (rational (mode.onFraction q))
  | v => do return double (mode.onDouble (← v.toNumber))

/-- The largest natural whose factorial is finite as a double. -/
def maxFactorial : Nat := 170

/-- The factors `2, 3, …, n` of a factorial. -/
def factors (n : Nat) : List Nat := List.range' 2 (n - 1)

/-- The factorial, if all products on the way fit into 64 bits. -/
def exactFactorial? (n : Nat) : Option Int :=
  (factors n).foldlM (fun product (k : Nat) => Fraction.word? (product * k)) 1

/-- The factorial as a double, rounded after each factor. -/
def roundedFactorial (n : Nat) : Float :=
  (factors n).foldl (fun product (k : Nat) => product * Binary64.ofInt k) 1.0

/-- The factorial of a natural: exact if it fits into 64 bits, otherwise a double, which is infinite
from `171!` on. -/
def factorial (n : Nat) : Value :=
  if maxFactorial < n then double Binary64.infinity
  else match exactFactorial? n with
    | some exact => ofInt exact
    | none => double (roundedFactorial n)

/-- The natural that a fraction is. -/
def exactNatural? : Value → Option Nat
  | rational q => if q.isInteger && 0 ≤ q.numerator then some q.numerator.toNat else none
  | _ => none

/-- The natural that a double is, held at the first natural whose factorial is infinite. -/
def naturalOfDouble? (x : Float) : Option Nat :=
  if x ≥ 0.0 && Binary64.fract x == 0.0 then
    let cap := Binary64.ofInt (maxFactorial + 1)
    some (Binary64.truncated (if x < cap then x else cap)).toNat
  else none

/-- The natural that a scalar is worth, for its factorial. -/
def toNatural (v : Value) : Except Fault Nat :=
  match v.exactNatural? with
  | some n => .ok n
  | none => do
    match naturalOfDouble? (← v.toNumber) with
    | some n => return n
    | none => throw (.factorialDomain v.text)

/-- The factorial of a scalar that is a natural. -/
def factorialScalar (v : Value) : Except Fault Value := do return factorial (← v.toNatural)

/-- The fraction near a scalar. -/
def rationalScalar (settings : Settings) : Value → Except Fault Value
  | rational q => .ok (rational q)
  | v => do
    let x ← v.toNumber
    match Fraction.near? x settings.tolerance settings.maxTerms with
    | some q => return rational q
    | none => throw (.noFraction x)

/-- The negation of what a scalar counts as. -/
def notScalar (v : Value) : Except Fault Value := do return boolean !(← v.toBool)

/-! ### Whole structures -/

/-- The sum of all elements, added from the left. -/
def sum (v : Value) : Except Fault Value := do
  (← v.leaves).foldlM (fun total x => arith .add total x) zero

/-- The number of elements. -/
def count (v : Value) : Except Fault Value := do return ofInt (← v.leaves).length

/-- The first element that comes before (`.lt`) or after (`.gt`) all others. -/
def extremum (wanted : Ordering) (v : Value) : Except Fault Value := do
  match ← v.leaves with
  | [] => throw .emptyExtremum
  | first :: rest =>
    rest.foldlM (fun best x => do return if (← x.compare best) == wanted then x else best) first

/-- The sum of all elements divided by their number. -/
def mean (v : Value) : Except Fault Value := do
  match (← v.leaves).length with
  | 0 => throw .emptyMean
  | n => arith .div (← sum v) (ofInt n)

/-- Rows and columns exchanged; shorter rows are padded with zeros. -/
def transposeRows (rows : List (List Value)) : List (List Value) :=
  (List.range (columns rows)).map fun j => rows.map fun row => row.getD j zero

/-- The transposed matrix. -/
def transpose (v : Value) : Except Fault Value := do return matrix (transposeRows (← v.toMatrix))

/-- The second of three elements if the first counts as true, else the third. -/
def choose : Value → Except Fault Value
  | vector [condition, yes, no] => do return if ← condition.toBool then yes else no
  | v => .error (.conditionalOperand v.kind)

end Value

/-! ### Operators -/

/-- What a unary operation yields. A unit conversion needs the names of units and never works on
values alone. -/
def UnaryOp.apply (op : UnaryOp) (context : OperationContext) (v : Value) : Except Fault Value :=
  match op with
  | .plus => v.mapLeaves .ok
  | .minus => v.mapLeaves Value.negateScalar
  | .not => v.mapLeaves Value.notScalar
  | .circular f =>
    v.mapAsVector fun x => do
      return .double (f.onDouble (context.angleUnit.toRadians (← x.toNumber)))
  | .arc f =>
    v.mapAsVector fun x => do
      return .double (context.angleUnit.ofRadians (f.arcOnDouble (← x.toNumber)))
  | .real f => v.mapDoubles f.onDouble
  | .abs => v.mapLeaves Value.absScalar
  | .sign => v.mapLeaves Value.signScalar
  | .rounding mode => v.mapLeaves (Value.roundScalar mode)
  | .factorial => v.mapLeaves Value.factorialScalar
  | .rational => v.mapLeaves (Value.rationalScalar context.settings)
  | .sum => v.sum
  | .count => v.count
  | .min => v.extremum .lt
  | .max => v.extremum .gt
  | .mean => v.mean
  | .transpose => v.transpose
  | .conditional => v.choose
  | .conversion => .error (.conversionOperand v.kind)

/-- What a binary operation yields. The second operand of a logical operation counts only if the
first leaves the answer open. -/
def BinaryOp.apply (op : BinaryOp) (v w : Value) : Except Fault Value :=
  match op with
  | .arith op => Value.arith op v w
  | .relation rel => do return .boolean (rel.holds (← v.compare w))
  | .and => do
    if ← v.toBool then return .boolean (← w.toBool) else return .boolean false
  | .or => do
    if ← v.toBool then return .boolean true else return .boolean (← w.toBool)

/-- What an operator yields: its binary meaning on two operands, its unary meaning on one. -/
def Operator.apply (op : Operator) (context : OperationContext) (operands : List Value) :
    Except Fault Value :=
  match operands with
  | [v, w] =>
    match op.binary? with
    | some b => b.apply v w
    | none => .error (.notBinary op)
  | [v] =>
    match op.unary? with
    | some u => u.apply context v
    | none => .error (.notUnary op)
  | _ => .error (.operandCount op operands.length)

end Abacus
