import Abacus.Proofs.Binary64.Division
import Abacus.Proofs.Fraction.Exactness

/-!
# Well-formed fractions

A fraction is well-formed if its denominator is positive, its parts have no common divisor and it
has a negative (`Fraction.IsWellFormed`). The first two are part of the type, the third is
`Fraction.IsNegatable`. Where it holds, negatives and magnitudes are exact
(`Fraction.IsNegatable.numerator_neg`).

The integers next to a fraction that can be negated can be negated, too. For rounding to the nearest
one (`Fraction.IsNegatable.round`) this rests on the quotient of the parts as doubles, which is not
larger than half the range. Floors and ceilings are exact by definition; what division that
truncates would have to divide for them is said by `Fraction.floor_eq_ofInt_tdiv` and
`Fraction.ceil_eq_ofInt_tdiv`.
-/

namespace Abacus.Fraction

open Binary64 (minInt maxInt)

/-- A fraction in lowest terms that has a negative. -/
def IsWellFormed (q : Fraction) : Prop :=
  0 < q.denominator ∧ q.numerator.natAbs.Coprime q.denominator ∧ q.numerator ≠ minInt

instance (q : Fraction) : Decidable q.IsWellFormed := inferInstanceAs (Decidable (_ ∧ _ ∧ _))

theorem isWellFormed_iff {q : Fraction} : q.IsWellFormed ↔ q.IsNegatable :=
  ⟨fun h => h.2.2, fun h => ⟨q.denominator_pos, q.coprime, h⟩⟩

/-! ### Signs -/

theorem IsNegatable.numerator_neg {q : Fraction} (h : q.IsNegatable) :
    q.neg.numerator = -q.numerator := by
  rw [Fraction.neg, dif_neg h]

theorem IsNegatable.natAbs_numerator_le {q : Fraction} (h : q.IsNegatable) :
    (q.numerator.natAbs : Int) ≤ maxInt := by
  have := neg_maxInt_le_of_isNegatable h
  have := q.le_maxInt
  omega

theorem IsNegatable.numerator_abs {q : Fraction} (h : q.IsNegatable) :
    q.abs.numerator = |q.numerator| := by
  rw [Fraction.abs]
  split
  · next hneg => rw [h.numerator_neg, abs_of_neg hneg]
  · next hneg => rw [abs_of_nonneg (not_lt.1 hneg)]

/-! ### Integers next to a fraction -/

theorem isNegatable_ofInt_of_lt {n : Int} (h : minInt < n) : (ofInt n).IsNegatable := by
  simp only [IsNegatable, ofInt, Binary64.clamp, minInt, maxInt] at *
  omega

theorem IsNegatable.floor {q : Fraction} (h : q.IsNegatable) : q.floor.IsNegatable := by
  have hd : (1 : Int) ≤ q.denominator := by exact_mod_cast q.denominator_pos
  have hn := neg_maxInt_le_of_isNegatable h
  refine isNegatable_ofInt_of_lt (Int.lt_of_lt_of_le (by decide : minInt < -maxInt) ?_)
  rw [Int.fdiv_eq_ediv_of_nonneg _ (by omega)]
  refine Int.le_ediv_of_mul_le (by omega) ?_
  simp only [maxInt] at *
  nlinarith

theorem IsNegatable.ceil {q : Fraction} (h : q.IsNegatable) : q.ceil.IsNegatable := by
  have hd : (1 : Int) ≤ q.denominator := by exact_mod_cast q.denominator_pos
  have hn := neg_maxInt_le_of_isNegatable h
  have hle : (-q.numerator).fdiv q.denominator ≤ maxInt := by
    rw [Int.fdiv_eq_ediv_of_nonneg _ (by omega)]
    refine Int.ediv_le_of_le_mul (by omega) ?_
    simp only [maxInt] at *
    nlinarith
  refine isNegatable_ofInt_of_lt (Int.lt_of_lt_of_le (by decide : minInt < -maxInt) ?_)
  omega

/-- The quotient rounded down, by division that truncates: counted from the other side of zero, it
is rounded up. -/
theorem ediv_eq_neg_tdiv {n d : ℤ} (hd : 0 < d) (hn : n < d) :
    n / d = -((d - 1 - n).tdiv d) := by
  have hr := Int.emod_nonneg n hd.ne'
  have hr' := Int.emod_lt_of_pos n hd
  have hsplit : d - 1 - n = d - 1 - n % d + d * -(n / d) := by
    have := Int.emod_add_mul_ediv n d
    linarith
  -- besides a multiple of `d` there is less than `d`
  have hrest : (d - 1 - n % d) / d = 0 := Int.ediv_eq_zero_of_lt (by omega) (by omega)
  rw [Int.tdiv_eq_ediv_of_nonneg (by omega), hsplit, Int.add_mul_ediv_left _ _ hd.ne', hrest,
    zero_add, neg_neg]

/-- The floor by division that truncates. What is divided below zero may lie further from zero than
the numerator. -/
theorem floor_eq_ofInt_tdiv (q : Fraction) :
    q.floor = ofInt (if q.numerator < 0
      then (q.numerator - q.denominator + 1).tdiv q.denominator
      else q.numerator.tdiv q.denominator) := by
  have hd : (0 : ℤ) < q.denominator := by exact_mod_cast q.denominator_pos
  rw [Fraction.floor, Int.fdiv_eq_ediv_of_nonneg _ hd.le]
  split
  · next hn =>
    rw [ediv_eq_neg_tdiv hd (by omega), ← Int.neg_tdiv]
    congr 2
    ring
  · next hn => rw [Int.tdiv_eq_ediv_of_nonneg (not_lt.1 hn)]

/-- The ceiling by division that truncates. What is divided from zero on may lie further from zero
than the numerator. -/
theorem ceil_eq_ofInt_tdiv (q : Fraction) :
    q.ceil = ofInt (if q.numerator < 0
      then q.numerator.tdiv q.denominator
      else (q.numerator + q.denominator - 1).tdiv q.denominator) := by
  have hd : (0 : ℤ) < q.denominator := by exact_mod_cast q.denominator_pos
  rw [Fraction.ceil, Int.fdiv_eq_ediv_of_nonneg _ hd.le]
  split
  · next hn => rw [← Int.tdiv_eq_ediv_of_nonneg (by omega), Int.neg_tdiv, neg_neg]
  · next hn =>
    rw [ediv_eq_neg_tdiv hd (by omega), neg_neg]
    congr 2
    ring

/-- The parts of a fraction that is no integer. -/
theorem IsNegatable.parts_of_not_isInteger {q : Fraction} (h : q.IsNegatable)
    (hinteger : ¬ q.isInteger) :
    q.numerator ≠ 0 ∧ q.numerator.natAbs < 2 ^ 63 ∧ 2 ≤ q.denominator ∧ q.denominator < 2 ^ 63 := by
  have hd : q.denominator ≠ 1 := fun hd => hinteger (by simp [isInteger, hd])
  have hpos := q.denominator_pos
  have hn : q.numerator ≠ 0 := fun hn => by
    have hcoprime := q.coprime
    rw [hn, Int.natAbs_zero, Nat.coprime_zero_left] at hcoprime
    exact hd hcoprime
  have hmax := h.natAbs_numerator_le
  have hmax' := q.denominator_le
  simp only [maxInt] at hmax hmax'
  exact ⟨hn, by omega, by omega, by omega⟩

theorem IsNegatable.round {q : Fraction} (h : q.IsNegatable) : q.round.IsNegatable := by
  unfold Fraction.round
  split
  · exact h
  · next hinteger =>
    obtain ⟨hn, hn', hd, hd'⟩ := h.parts_of_not_isInteger hinteger
    exact isNegatable_ofInt_of_lt (Binary64.minInt_lt_roundedHalfAway_div hn hn' hd hd')

end Abacus.Fraction
