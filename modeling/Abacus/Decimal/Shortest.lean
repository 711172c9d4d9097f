import Abacus.Binary64.Basic

/-!
# The shortest decimal of a double

A decimal names a double if it lies in the interval of reals that round to that double. Among the
decimals that name it this module picks the one with the fewest digits, among those the nearest to
the double, and of two equally near ones the larger. All of it is arithmetic on naturals: a double
`m · 2 ^ q` lies between the bounds `(4m - 2) · 2 ^ (q - 2)` and `(4m + 2) · 2 ^ (q - 2)`, where the
lower bound is `(4m - 1) · 2 ^ (q - 2)` if the neighbour below is only half as far away.
-/

namespace Abacus.Decimal

open Binary64

/-- A power of ten; negative powers count as one. -/
def tenPow (e : Int) : Nat := Nat.pow 10 e.toNat

/-- The decimal `digits · 10 ^ exponent`. -/
structure Digits where
  digits : Nat
  exponent : Int
  deriving DecidableEq, Repr

/-- The reals that round to a positive double, as quotients with a common denominator. The ends
belong to the interval if the significand is even. -/
structure Interval where
  lower : Nat
  value : Nat
  upper : Nat
  denominator : Nat
  closed : Bool

/-- The interval of a positive finite double. -/
def Interval.ofParts (p : Parts) : Interval :=
  let m := 4 * p.significand
  let gap := if p.significand = 1 <<< 52 ∧ minExponent < p.exponent then 1 else 2
  let q := p.exponent - 2
  let up := q.toNat
  ⟨(m - gap) <<< up, m <<< up, (m + 2) <<< up, 1 <<< (-q).toNat, p.significand % 2 == 0⟩

/-- Whether the decimal `k · 10 ^ e` lies in the interval. -/
def Interval.contains (i : Interval) (k : Nat) (e : Int) : Bool :=
  let a := k * tenPow e * i.denominator
  let scale := tenPow (-e)
  if i.closed then i.lower * scale ≤ a && a ≤ i.upper * scale
  else i.lower * scale < a && a < i.upper * scale

/-- The multiple of `10 ^ e` in the interval that is nearest to the value, if one of the value's two
neighbours on that grid lies in the interval. -/
def Interval.onGrid? (i : Interval) (e : Int) : Option Nat :=
  let a := i.value * tenPow (-e)
  let b := i.denominator * tenPow e
  let k := a / b
  match i.contains k e, i.contains (k + 1) e with
  | true, true => some (if 2 * (a % b) < b then k else k + 1)
  | true, false => some k
  | false, true => some (k + 1)
  | false, false => none

/-- Whether a quotient of naturals is below `10 ^ e`. -/
def belowPower (n d : Nat) (e : Int) : Bool := n * tenPow (-e) < d * tenPow e

/-- The least `e` with `n / d < 10 ^ e`, found from an estimate by the binary lengths. -/
def magnitude (n d : Nat) : Int :=
  let estimate := ((n.log2 : Int) - d.log2 - 1) * 30103 / 100000
  if belowPower n d estimate then estimate
  else if belowPower n d (estimate + 1) then estimate + 1
  else if belowPower n d (estimate + 2) then estimate + 2
  else estimate + 3

/-- The first hit on the grids with `count`, `count + 1`, … digits. -/
def Interval.firstHit (i : Interval) (leading : Int) : (grids count : Nat) → Digits
  | 0, count => ⟨(i.onGrid? (leading - count)).getD 0, leading - count⟩
  | grids + 1, count =>
    match i.onGrid? (leading - count) with
    | some k => ⟨k, leading - count⟩
    | none => i.firstHit leading grids (count + 1)

/-- Moves zeros at the end of the digits into the exponent. -/
def Digits.stripped (d : Digits) : (zeros : Nat) → Digits
  | 0 => d
  | zeros + 1 =>
    if d.digits ≠ 0 ∧ d.digits % 10 = 0 then
      Digits.stripped ⟨d.digits / 10, d.exponent + 1⟩ zeros
    else d

/-- The shortest decimal of a positive finite double. Seventeen digits always suffice. -/
def shortest (p : Parts) : Digits :=
  let i := Interval.ofParts p
  (i.firstHit (magnitude i.value i.denominator) 16 1).stripped 1

end Abacus.Decimal
