import Abacus.Fraction.Basic

/-!
# Checked arithmetic of fractions

Sums, products, quotients, remainders and powers are exact or missing: an operation has no result
if one of the integers that it computes on the way leaves the range of 64 bits, or if its lowest
terms do. Which integers it computes is part of the definition. A sum goes through the least common
denominator; a product divides out common divisors first, so that it is missing only when its lowest
terms do not fit; a quotient does so too, after the two cases in which nothing needs to be
multiplied.

Negatives, magnitudes and integers next to a fraction are always there. They are computed in the
integers, so that floors and ceilings are right up to the ends of the range.
-/

namespace Abacus.Fraction

open Binary64 (minInt maxInt)

/-- An integer, if it fits into 64 bits. -/
def word? (n : Int) : Option Int := if minInt ≤ n ∧ n ≤ maxInt then some n else none

/-- The numerators of two fractions over their least common denominator, and that denominator. -/
def common? (p q : Fraction) : Option (Int × Int × Int) := do
  let g := p.denominator.gcd q.denominator
  let lcm ← word? (p.denominator / g * q.denominator)
  let x ← word? (lcm / p.denominator * p.numerator)
  let y ← word? (lcm / q.denominator * q.numerator)
  some (x, y, lcm)

/-- The sum, if it can be computed. -/
def add? (p q : Fraction) : Option Fraction := do
  let (x, y, lcm) ← common? p q
  ofParts? (← word? (x + y)) lcm

/-- The difference, if it can be computed. -/
def sub? (p q : Fraction) : Option Fraction := do
  let (x, y, lcm) ← common? p q
  ofParts? (← word? (x - y)) lcm

/-- The product, if it can be computed. -/
def mul? (p q : Fraction) : Option Fraction := do
  let g := p.numerator.natAbs.gcd q.denominator
  let h := p.denominator.gcd q.numerator.natAbs
  let n ← word? (p.numerator / g * (q.numerator / h))
  let d ← word? (p.denominator / h * (q.denominator / g))
  ofParts? n d

/-- The quotient, if the divisor is not zero and the quotient can be computed. -/
def div? (p q : Fraction) : Option Fraction :=
  if q.numerator = 0 then none
  else if p.denominator = q.denominator then ofParts? p.numerator q.numerator
  else if p.numerator = q.numerator then ofParts? q.denominator p.denominator
  else do
    let g := p.numerator.natAbs.gcd q.numerator.natAbs
    let h := p.denominator.gcd q.denominator
    let n ← word? (p.numerator / g * (q.denominator / h))
    let d ← word? (p.denominator / h * (q.numerator / g))
    ofParts? n d

theorem coprime_neg (q : Fraction) : (-q.numerator).natAbs.Coprime q.denominator := by
  rw [Int.natAbs_neg]
  exact q.coprime

theorem minInt_le_neg (q : Fraction) : minInt ≤ -q.numerator := by
  have := q.le_maxInt
  simp only [minInt, maxInt] at *
  omega

theorem neg_le_maxInt (q : Fraction) (h : q.numerator ≠ minInt) : -q.numerator ≤ maxInt := by
  have := q.minInt_le
  simp only [minInt, maxInt] at *
  omega

/-- The negative. The smallest integer of 64 bits stays as it is. -/
def neg (q : Fraction) : Fraction :=
  if h : q.numerator = minInt then q
  else
    ⟨-q.numerator, q.denominator, q.denominator_pos, q.coprime_neg, q.minInt_le_neg,
      q.neg_le_maxInt h, q.denominator_le⟩

/-- The magnitude. -/
def abs (q : Fraction) : Fraction := if q.numerator < 0 then q.neg else q

/-- The largest integer that is not above the fraction. It is exact for every fraction. Division in
64 bits that truncates would divide `numerator - denominator + 1` below zero
(`floor_eq_ofInt_tdiv`), which wraps if the numerator is near the lower end of the range; here
nothing wraps. -/
def floor (q : Fraction) : Fraction := ofInt (q.numerator.fdiv q.denominator)

/-- The smallest integer that is not below the fraction, exact as well. In 64 bits,
`numerator + denominator - 1` would be divided from zero on (`ceil_eq_ofInt_tdiv`), which wraps if
the numerator is near the upper end of the range. -/
def ceil (q : Fraction) : Fraction := ofInt (-((-q.numerator).fdiv q.denominator))

/-- The fraction without its fractional part. -/
def trunc (q : Fraction) : Fraction := ofInt (q.numerator.tdiv q.denominator)

/-- The integer nearest to the double of a fraction, halves away from zero. Integers stay as they
are. -/
def round (q : Fraction) : Fraction :=
  if q.isInteger then q else ofInt (Binary64.roundedHalfAway q.toFloat)

/-- The remainder `p - q · trunc (p / q)`, which has the sign of `p`. -/
def rem? (p q : Fraction) : Option Fraction := do
  let quotient ← p.div? q
  p.sub? (← quotient.trunc.mul? q)

/-- `result · square ^ n` by squaring; a square that is not used any more is not computed. -/
def powFrom? (result square : Fraction) (n : Nat) : Option Fraction :=
  if n = 0 then some result
  else do
    let result ← if n % 2 = 1 then result.mul? square else some result
    if n / 2 = 0 then some result
    else powFrom? result (← square.mul? square) (n / 2)
termination_by n
decreasing_by omega

/-- The power with an integer exponent, if it can be computed. A negative exponent inverts the base
first. -/
def pow? (base exponent : Fraction) : Option Fraction :=
  if exponent.isInteger then do
    let base ← if exponent.numerator < 0 then one.div? base else some base
    powFrom? one base exponent.numerator.natAbs
  else none

/-- The exact result of an arithmetic operation, if it can be computed. -/
def arith? : Arith → Fraction → Fraction → Option Fraction
  | .add => add?
  | .sub => sub?
  | .mul => mul?
  | .div => div?
  | .pow => pow?
  | .rem => rem?

end Abacus.Fraction
