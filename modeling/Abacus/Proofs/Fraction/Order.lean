import Abacus.Proofs.Fraction.Quotients
import Mathlib.Order.Compare

/-!
# The order of fractions

Fractions are ordered by their cross products, which is the order of the rational numbers that they
stand for, because denominators are positive (`Fraction.compare_eq`). Both parts fit into 64 bits,
so 128 bits are enough to compute the products (`Fraction.toInt_crossWord`).

Fractions are also equal by their cross products. In lowest terms only a fraction itself has equal
ones (`Fraction.beq_eq_true_iff`), so that nothing which is computed from the parts of a fraction,
be it its text or a hash, tells equal fractions apart.
-/

namespace Abacus.Fraction

open Binary64 (minInt maxInt)

theorem toRat_lt_iff {p q : Fraction} :
    p.toRat < q.toRat ↔ p.numerator * q.denominator < q.numerator * p.denominator := by
  have hp : (0 : ℚ) < p.denominator := Nat.cast_pos.2 p.denominator_pos
  have hq : (0 : ℚ) < q.denominator := Nat.cast_pos.2 q.denominator_pos
  rw [toRat_eq_div, toRat_eq_div, div_lt_div_iff₀ hp hq]
  exact_mod_cast Iff.rfl

theorem compare_eq_lt_iff {p q : Fraction} : p.compare q = .lt ↔ p.toRat < q.toRat := by
  rw [toRat_lt_iff, compare, compare_lt_iff_lt]

theorem compare_eq_gt_iff {p q : Fraction} : p.compare q = .gt ↔ q.toRat < p.toRat := by
  rw [toRat_lt_iff, compare, compare_gt_iff_gt]

theorem compare_eq (p q : Fraction) : p.compare q = Ord.compare p.toRat q.toRat := by
  rcases lt_trichotomy p.toRat q.toRat with hlt | heq | hgt
  · rw [compare_eq_lt_iff.2 hlt, compare_lt_iff_lt.2 hlt]
  · obtain rfl := toRat_injective heq
    rw [compare, compare_eq_iff_eq.2 rfl, compare_eq_iff_eq.2 rfl]
  · rw [compare_eq_gt_iff.2 hgt, compare_gt_iff_gt.2 hgt]

theorem compare_eq_eq_iff {p q : Fraction} : p.compare q = .eq ↔ p = q := by
  rw [compare_eq, compare_eq_iff_eq, toRat_injective.eq_iff]

theorem isLE_compare_iff {p q : Fraction} : (p.compare q).isLE ↔ p.toRat ≤ q.toRat := by
  rw [compare_eq, Ordering.isLE_iff_ne_gt, compare_gt_iff_gt, not_lt]

/-- Equality by cross products is equality. -/
theorem beq_eq_true_iff {p q : Fraction} : p == q ↔ p = q := by
  change (p.compare q == .eq) = true ↔ p = q
  rw [beq_iff_eq, compare_eq_eq_iff]

/-! ### The size of cross products -/

theorem abs_cross_le (p q : Fraction) : |p.numerator * q.denominator| ≤ 2 ^ 126 := by
  have hnumerator : |p.numerator| ≤ 2 ^ 63 := by
    have := p.minInt_le
    have := p.le_maxInt
    simp only [minInt, maxInt] at *
    rw [abs_le]
    omega
  have hdenominator : |(q.denominator : ℤ)| ≤ 2 ^ 63 := by
    have := q.denominator_le
    simp only [maxInt] at *
    rw [abs_le]
    omega
  calc |p.numerator * q.denominator| = |p.numerator| * |(q.denominator : ℤ)| := abs_mul _ _
    _ ≤ 2 ^ 63 * 2 ^ 63 := mul_le_mul hnumerator hdenominator (abs_nonneg _) (by norm_num)
    _ = 2 ^ 126 := by norm_num

/-- A cross product as it is computed in words of 128 bits, in which it could wrap around. -/
def crossWord (p q : Fraction) : BitVec 128 :=
  BitVec.ofInt 128 p.numerator * BitVec.ofInt 128 q.denominator

/-- It does not wrap around. -/
theorem toInt_crossWord (p q : Fraction) :
    (p.crossWord q).toInt = p.numerator * q.denominator := by
  have hbounds := abs_le.1 (p.abs_cross_le q)
  rw [crossWord, ← BitVec.ofInt_mul, BitVec.toInt_ofInt]
  exact Int.bmod_eq_of_le (by omega) (by omega)

/-- **Fractions are ordered as the rational numbers are.** Cross products of 128 bits do not
overflow; the order that they give is that of the rational numbers, and so total, antisymmetric and
transitive; and only fractions with the same parts are equal, which have the same text and feed the
same to every hasher. -/
theorem compare_laws :
    (∀ p q : Fraction, |p.numerator * q.denominator| < 2 ^ 127 ∧
      (p.crossWord q).toInt = p.numerator * q.denominator ∧
      p.compare q = Ord.compare (p.crossWord q).toInt (q.crossWord p).toInt ∧
      p.compare q = Ord.compare p.toRat q.toRat) ∧
    (∀ p q : Fraction, p.compare q = (q.compare p).swap ∧ (p.compare q = .eq → p = q)) ∧
    (∀ p q r : Fraction, (p.compare q).isLE → (q.compare r).isLE → (p.compare r).isLE) ∧
    (∀ p q : Fraction,
      (p == q ↔ p.numerator = q.numerator ∧ p.denominator = q.denominator) ∧
      (p == q → p.text = q.text ∧ ∀ {σ : Type} (write : σ → Int → σ) (state : σ),
        p.hashInto write state = q.hashInto write state)) := by
  refine ⟨fun p q => ?_, fun p q => ⟨?_, compare_eq_eq_iff.1⟩, fun p q r hpq hqr => ?_,
    fun p q => ⟨?_, fun heq => ?_⟩⟩
  · have hlt : |p.numerator * q.denominator| < 2 ^ 127 :=
      (p.abs_cross_le q).trans_lt (by norm_num)
    refine ⟨hlt, p.toInt_crossWord q, ?_, p.compare_eq q⟩
    rw [toInt_crossWord, toInt_crossWord, compare]
  · rw [compare_eq, compare_eq, Std.OrientedOrd.eq_swap]
  · rw [isLE_compare_iff] at *
    exact hpq.trans hqr
  · rw [beq_eq_true_iff]
    exact Fraction.ext_iff
  · rw [beq_eq_true_iff.1 heq]
    exact ⟨rfl, fun _ _ => rfl⟩

/-- Three fractions with parts at the ends of the range, in their order. -/
theorem compare_laws_extremes :
    let p : Fraction :=
      ⟨minInt, 2 ^ 63 - 1, by decide, by decide, by decide, by decide, by decide⟩
    let q : Fraction :=
      ⟨maxInt, 2 ^ 63 - 2, by decide, by decide, by decide, by decide, by decide⟩
    let r : Fraction := ⟨maxInt, 2, by decide, by decide, by decide, by decide, by decide⟩
    (p.crossWord q).toInt = minInt * (2 ^ 63 - 2) ∧ (p.compare q).isLE ∧ (q.compare r).isLE ∧
      (p.compare r).isLE ∧ (p == q) = false := by
  intro p q r
  obtain ⟨hcross, -, htrans, hequal⟩ := compare_laws
  have hpq : (p.compare q).isLE := by decide
  have hqr : (q.compare r).isLE := by decide
  refine ⟨(hcross p q).2.1, hpq, hqr, htrans p q r hpq hqr, Bool.eq_false_iff.2 fun heq => ?_⟩
  exact absurd ((hequal p q).1.1 heq).1 (by decide)

end Abacus.Fraction
