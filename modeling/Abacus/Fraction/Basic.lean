import Abacus.Fault

/-!
# Fractions

A fraction is exact and always in lowest terms: its denominator is positive and shares no divisor
with its numerator. Both parts fit into 64 bits. The constructors are

* `ofParts?` — the quotient of two integers, if its lowest terms fit;
* `make` — the same for parts given from outside, with a fault that says what is wrong with them;
* `ofInt?` and `ofInt` — an integer, if it fits or held at the ends of the range.

The smallest integer of 64 bits has no negative of 64 bits. Only `ofInt?` and `ofInt` let it in;
`Fraction.IsNegatable` says of the others that they keep it out.
-/

namespace Abacus

open Binary64 (minInt maxInt clamp)

/-- A number in lowest terms whose parts fit into 64 bits. -/
@[ext] structure Fraction where
  numerator : Int
  denominator : Nat
  denominator_pos : 0 < denominator
  coprime : numerator.natAbs.Coprime denominator
  minInt_le : minInt ≤ numerator
  le_maxInt : numerator ≤ maxInt
  denominator_le : (denominator : Int) ≤ maxInt
  deriving DecidableEq

namespace Fraction

instance : Repr Fraction := ⟨fun q _ => repr q.numerator ++ "/" ++ repr q.denominator⟩

/-- The rational number that a fraction stands for. -/
def toRat (q : Fraction) : Rat :=
  ⟨q.numerator, q.denominator, Nat.ne_of_gt q.denominator_pos, q.coprime⟩

/-- A fraction whose negative is a fraction. -/
def IsNegatable (q : Fraction) : Prop := q.numerator ≠ minInt

instance (q : Fraction) : Decidable q.IsNegatable := inferInstanceAs (Decidable (_ ≠ _))

/-! ### Integers -/

theorem minInt_le_clamp (n : Int) : minInt ≤ clamp n := by
  simp only [clamp, minInt, maxInt]; omega

theorem clamp_le_maxInt (n : Int) : clamp n ≤ maxInt := by
  simp only [clamp, minInt, maxInt]; omega

/-- An integer as a fraction, held at the ends of the range if it does not fit. -/
def ofInt (n : Int) : Fraction :=
  ⟨clamp n, 1, Nat.one_pos, Nat.coprime_one_right _, minInt_le_clamp n, clamp_le_maxInt n,
    by decide⟩

/-- An integer as a fraction, if it fits. -/
def ofInt? (n : Int) : Option Fraction :=
  if minInt ≤ n ∧ n ≤ maxInt then some (ofInt n) else none

instance : Inhabited Fraction := ⟨ofInt 0⟩

/-- Zero. -/
def zero : Fraction := ofInt 0

/-- One. -/
def one : Fraction := ofInt 1

/-! ### Quotients -/

theorem gcd_pos (n : Int) {d : Nat} (pos : 0 < d) : 0 < n.natAbs.gcd d :=
  Nat.gcd_pos_of_pos_right _ pos

theorem div_gcd_pos (n : Int) {d : Nat} (pos : 0 < d) : 0 < d / n.natAbs.gcd d :=
  Nat.div_pos (Nat.gcd_le_right _ pos) (gcd_pos n pos)

theorem coprime_div_gcd (n : Int) {d : Nat} (pos : 0 < d) :
    (n / (n.natAbs.gcd d : Nat)).natAbs.Coprime (d / n.natAbs.gcd d) := by
  have hg : ((n.natAbs.gcd d : Nat) : Int) ∣ n := Int.ofNat_dvd_left.2 (Nat.gcd_dvd_left _ _)
  rw [Int.natAbs_ediv_of_dvd hg, Int.natAbs_natCast]
  exact Nat.coprime_div_gcd_div_gcd (gcd_pos n pos)

theorem minInt_le_of_neg_maxInt_le {n : Int} (h : -maxInt ≤ n) : minInt ≤ n :=
  Int.le_trans (by decide) h

/-- The fraction `n / d` for a positive `d`, if its lowest terms fit and it can be negated. -/
def ofPositive? (n : Int) (d : Nat) (pos : 0 < d) : Option Fraction :=
  let g := n.natAbs.gcd d
  if h : -maxInt ≤ n / g ∧ n / g ≤ maxInt ∧ ((d / g : Nat) : Int) ≤ maxInt then
    some ⟨n / g, d / g, div_gcd_pos n pos, coprime_div_gcd n pos,
      minInt_le_of_neg_maxInt_le h.1, h.2.1, h.2.2⟩
  else none

/-- The fraction `n / d`, if `d` is not zero, the lowest terms fit and it can be negated. The sign
moves to the numerator. -/
def ofParts? (n d : Int) : Option Fraction :=
  if h : d = 0 then none
  else ofPositive? (d.sign * n) d.natAbs (Int.natAbs_pos.2 h)

/-- The fraction `n / d` for integers of 64 bits that are given from outside. A zero denominator
and parts without a negative are faults; all other parts have a fraction. -/
def make (n d : Int) : Except Fault Fraction :=
  if d = 0 then .error (.zeroDenominator n d)
  else if n = minInt ∨ d = minInt then .error (.outOfRange n d)
  else match ofParts? n d with
    | some q => .ok q
    | none => .error (.outOfRange n d)

/-! ### Properties and order -/

/-- A fraction without a proper fractional part. -/
def isInteger (q : Fraction) : Bool := q.denominator == 1

/-- The fraction zero. -/
def isZero (q : Fraction) : Bool := q.numerator == 0

/-- The sign: `-1`, `0` or `1`. -/
def sign (q : Fraction) : Int := q.numerator.sign

/-- The order of two fractions is the order of their cross products, as denominators are
positive. -/
def compare (p q : Fraction) : Ordering :=
  Ord.compare (p.numerator * q.denominator) (q.numerator * p.denominator)

/-- Fractions are equal if neither comes first. -/
instance : BEq Fraction := ⟨fun p q => p.compare q == .eq⟩

/-- The state of a hasher that is fed with the two parts, given how it takes up an integer. -/
def hashInto {σ : Type} (write : σ → Int → σ) (state : σ) (q : Fraction) : σ :=
  write (write state q.numerator) q.denominator

/-- The quotient of the doubles nearest to the two parts. -/
def toFloat (q : Fraction) : Float := Binary64.ofInt q.numerator / Binary64.ofInt q.denominator

/-- The text of a fraction: an integer alone, or the parts with a slash between them. -/
def text (q : Fraction) : String :=
  if q.denominator = 1 then Decimal.integer q.numerator
  else Decimal.integer q.numerator ++ "/" ++ Decimal.integer q.denominator

end Fraction

end Abacus
