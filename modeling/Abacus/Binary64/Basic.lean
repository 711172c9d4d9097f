/-!
# Doubles, exactly

A finite double is `±m · 2 ^ q` with naturals `m < 2 ^ 53` and an exponent `q ≥ -1074`. This module
takes doubles apart into that form and puts them together again, so that every operation whose
result must be exact to the last bit is a computation on integers:

* `parts?` — sign, significand and exponent of a finite double;
* `nearest` — the double nearest to a quotient of naturals, ties to the even significand;
* `floor`, `roundedHalfAway`, `truncated` — the integer next to a double;
* `remainder`, `cubeRoot` — the exact remainder of a division and the correctly rounded cube root.

`nearest` also reads decimals: a decimal is a quotient of naturals.
-/

namespace Abacus.Binary64

/-- A finite double `±significand · 2 ^ exponent`. -/
structure Parts where
  negative : Bool
  significand : Nat
  exponent : Int
  deriving DecidableEq, Repr

/-- The smallest exponent of a double; a significand below `2 ^ 52` occurs with this one only. -/
def minExponent : Int := -1074

/-- The largest value of the exponent field, which marks infinities and NaN. -/
def maxField : Nat := 2047

/-- Sign, significand and exponent of a finite double, nothing for infinities and NaN. -/
def parts? (x : Float) : Option Parts :=
  let bits := x.toBits.toNat
  let negative := bits >>> 63 == 1
  let field := (bits >>> 52) % 2048
  let fraction := bits % (1 <<< 52)
  if field = maxField then none
  else if field = 0 then some ⟨negative, fraction, minExponent⟩
  else some ⟨negative, (1 <<< 52) + fraction, minExponent + (field : Int) - 1⟩

/-- The sign bit, which zeros and NaN have too. -/
def isNegative (x : Float) : Bool := x.toBits.toNat >>> 63 == 1

/-- The double with the given sign whose magnitude has the given bits. -/
def ofMagnitude (negative : Bool) (bits : Nat) : Float :=
  Float.ofBits (UInt64.ofNat (if negative then (1 <<< 63) + bits else bits))

/-- The bits of positive infinity, next above those of the largest finite double. -/
def infinityBits : Nat := maxField <<< 52

/-- A quotient of naturals rounded to the nearest natural, ties to the even one. -/
def roundDiv (n d : Nat) : Nat :=
  let q := n / d
  let r := n % d
  if 2 * r < d then q else if d < 2 * r then q + 1 else q + q % 2

/-- Numerator and denominator of `n / d / 2 ^ e`. -/
def scale (n d : Nat) (e : Int) : Nat × Nat :=
  if 0 ≤ e then (n, d <<< e.toNat) else (n <<< (-e).toNat, d)

/-- The exponent with which the significand of `n / d` has 53 bits, or the smallest exponent. -/
def exponentOf (n d : Nat) : Int :=
  let e : Int := (n.log2 : Int) - d.log2 - 52
  let (a, b) := scale n d e
  max minExponent (if a / b < 1 <<< 52 then e - 1 else e)

/-- The double nearest to `±n / d`, ties to the even significand; quotients beyond the largest
double become infinite. The significand's leading bit adds itself to the exponent field, and a
significand that rounds up to `2 ^ 53` carries into it. -/
def nearest (negative : Bool) (n d : Nat) : Float :=
  if n = 0 then ofMagnitude negative 0
  else
    let e := exponentOf n d
    let (a, b) := scale n d e
    let bits := ((e - minExponent).toNat <<< 52) + roundDiv a b
    ofMagnitude negative (min bits infinityBits)

/-- The double nearest to an integer. -/
def ofInt (n : Int) : Float := nearest (n < 0) n.natAbs 1

/-- Not a number. -/
def nan : Float := 0.0 / 0.0

/-- Positive infinity. -/
def infinity : Float := 1.0 / 0.0

/-! ### Integers next to a double -/

/-- The magnitude without its fractional part. -/
def Parts.wholeMagnitude (p : Parts) : Nat :=
  if 0 ≤ p.exponent then p.significand <<< p.exponent.toNat
  else p.significand >>> (-p.exponent).toNat

/-- The magnitude rounded to the nearest natural, halves upwards. -/
def Parts.roundedMagnitude (p : Parts) : Nat :=
  if 0 ≤ p.exponent then p.significand <<< p.exponent.toNat
  else (p.significand + (1 <<< ((-p.exponent).toNat - 1))) >>> (-p.exponent).toNat

/-- A magnitude with the sign of a double. -/
def Parts.signed (p : Parts) (magnitude : Nat) : Int :=
  if p.negative then -magnitude else magnitude

/-- The largest integer that 64 bits hold. -/
def maxInt : Int := 9223372036854775807

/-- The smallest integer that 64 bits hold. -/
def minInt : Int := -9223372036854775808

/-- The integer of 64 bits nearest to `n`. -/
def clamp (n : Int) : Int := max minInt (min maxInt n)

/-- An integer of 64 bits taken from the parts of a double. Infinities become the ends of the
range and NaN becomes zero. -/
def saturate (f : Parts → Int) (x : Float) : Int :=
  match parts? x with
  | some p => clamp (f p)
  | none => if x.isNaN then 0 else if isNegative x then minInt else maxInt

/-- The double without its fractional part, as an integer of 64 bits. -/
def truncated (x : Float) : Int := saturate (fun p => p.signed p.wholeMagnitude) x

/-- The nearest integer, halves away from zero, as an integer of 64 bits. -/
def roundedHalfAway (x : Float) : Int := saturate (fun p => p.signed p.roundedMagnitude) x

/-- The largest integer that is not above the double. -/
def Parts.floor (p : Parts) : Int :=
  if 0 ≤ p.exponent then p.signed (p.significand <<< p.exponent.toNat)
  else p.signed p.significand >>> (-p.exponent).toNat

/-- The largest integer that is not above a double, as a double. It has the sign of the double if it
is zero; infinities and NaN stay as they are. -/
def floor (x : Float) : Float :=
  match parts? x with
  | some p => if 0 ≤ p.exponent then x else nearest p.negative p.floor.natAbs 1
  | none => x

/-- The double without its fractional part; the sign of a zero stays. -/
def trunc (x : Float) : Float := if x < 0 then x.ceil else x.floor

/-- The fractional part, with the sign of the double. -/
def fract (x : Float) : Float := x - trunc x

/-! ### Exact remainder and cube root -/

/-- `x - y · n` for the integer `n` between zero and `x / y` that lies nearest to the quotient,
computed without rounding. The result has the sign of `x`. -/
def remainder (x y : Float) : Float :=
  match parts? x, parts? y with
  | some a, some b =>
    if b.significand = 0 then nan
    else
      let e := min a.exponent b.exponent
      let m := a.significand <<< (a.exponent - e).toNat
      let n := b.significand <<< (b.exponent - e).toNat
      let (p, q) := scale (m % n) 1 (-e)
      nearest a.negative p q
  | some _, none => if y.isNaN then nan else x
  | none, _ => nan

/-- The largest natural of `bits` further binary digits after `root` whose cube is at most `n`. -/
def cubeRootFloor (n : Nat) : (bits root : Nat) → Nat
  | 0, root => root
  | bits + 1, root =>
    let next := root + (1 <<< bits)
    cubeRootFloor n bits (if next * next * next ≤ n then next else root)

/-- The double nearest to the cube root. The root of the significand is taken to more than 54
binary digits, and a half unit stands for the digits that remain. -/
def cubeRoot (x : Float) : Float :=
  match parts? x with
  | none => x
  | some p =>
    if p.significand = 0 then x
    else
      let shift := (180 + p.exponent % 3).toNat
      let n := p.significand <<< shift
      let root := cubeRootFloor n 80 0
      let m := 2 * root + (if root * root * root = n then 0 else 1)
      let (a, b) := scale m 2 (-((p.exponent - shift) / 3))
      nearest p.negative a b

end Abacus.Binary64
