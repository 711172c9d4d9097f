import Abacus.Proofs.Fraction.WellFormed

/-!
# Checked arithmetic fails only where it must

Where a product, a quotient or a power has lowest terms that fit (`Fraction.IsRepresentable`), it is
computed. For products and quotients this is because there is a fraction for it. For powers it is
because each square and each product on the way is a power of the base with an exponent of at most
the given one, and the parts of powers grow with the exponent (`Fraction.IsRepresentable.of_pow`).

Sums have no such law: the numerators over the least common denominator may leave the range although
the lowest terms of their sum do not.
-/

namespace Abacus.Fraction

open Binary64 (minInt maxInt)

/-! ### Representable numbers -/

/-- A rational number whose parts, in lowest terms, have magnitudes of at most `2 ^ 63 - 1`. -/
def IsRepresentable (x : ℚ) : Prop := |x.num| ≤ maxInt ∧ (x.den : Int) ≤ maxInt

instance (x : ℚ) : Decidable (IsRepresentable x) := inferInstanceAs (Decidable (_ ∧ _))

/-- The number of a fraction that can be negated is representable. -/
theorem IsNegatable.isRepresentable {q : Fraction} (h : q.IsNegatable) :
    IsRepresentable q.toRat :=
  ⟨abs_le.2 ⟨neg_maxInt_le_of_isNegatable h, q.le_maxInt⟩, q.denominator_le⟩

/-- A representable number is that of a fraction that can be negated. -/
theorem IsRepresentable.exists_toRat_eq {x : ℚ} (h : IsRepresentable x) :
    ∃ q : Fraction, q.IsNegatable ∧ q.toRat = x := by
  obtain ⟨hmin, hmax⟩ := abs_le.1 h.1
  refine ⟨⟨x.num, x.den, x.pos, x.reduced, minInt_le_of_neg_maxInt_le hmin, hmax, h.2⟩, ?_, rfl⟩
  exact isNegatable_of_neg_maxInt_le hmin

/-- What there is exactly one fraction for is missing only if it is not representable. -/
theorem eq_none_iff_not_isRepresentable {e : Option Fraction} {x : ℚ}
    (h : ∀ r, e = some r ↔ r.IsNegatable ∧ r.toRat = x) : e = none ↔ ¬ IsRepresentable x := by
  constructor
  · rintro rfl hx
    obtain ⟨r, hr⟩ := hx.exists_toRat_eq
    cases (h r).2 hr
  · intro hx
    refine Option.eq_none_iff_forall_ne_some.2 fun r hr => ?_
    obtain ⟨hnegatable, rfl⟩ := (h r).1 hr
    exact hx hnegatable.isRepresentable

/-! ### Remainders -/

/-- What is left of a number without its integer part is smaller than one and keeps its sign. -/
theorem abs_sub_truncRat_lt_one (x : ℚ) : |x - truncRat x| < 1 ∧ 0 ≤ (x - truncRat x) * x := by
  rw [truncRat]
  split
  · next h =>
    have hle := Int.floor_le x
    have hlt := Int.lt_floor_add_one x
    exact ⟨abs_lt.2 ⟨by linarith, by linarith⟩, mul_nonneg (by linarith) h⟩
  · next h =>
    have hle := Int.le_ceil x
    have hlt := Int.ceil_lt_add_one x
    refine ⟨abs_lt.2 ⟨by linarith, by linarith⟩, ?_⟩
    exact mul_nonneg_of_nonpos_of_nonpos (by linarith) (by linarith)

/-- Numbers whose product is not negative have the same sign, unless one of them is zero. -/
theorem signRat_eq_of_mul_nonneg {x y : ℚ} (hx : x ≠ 0) (hy : y ≠ 0) (h : 0 ≤ x * y) :
    signRat x = signRat y := by
  rcases lt_or_gt_of_ne hx with hx | hx
  · have hy : y < 0 := lt_of_le_of_ne (by nlinarith) hy
    rw [signRat, signRat, if_neg (by linarith), if_pos hx, if_neg (by linarith), if_pos hy]
  · have hy : 0 < y := lt_of_le_of_ne (by nlinarith) hy.symm
    rw [signRat, signRat, if_pos hx, if_pos hy]

/-- A remainder is smaller than the divisor and has the sign of the dividend. -/
theorem remainder_spec (x : ℚ) {y : ℚ} (hy : y ≠ 0) :
    |x - y * truncRat (x / y)| < |y| ∧
      (x - y * truncRat (x / y) = 0 ∨ signRat (x - y * truncRat (x / y)) = signRat x) := by
  have hsplit : x - y * truncRat (x / y) = y * (x / y - truncRat (x / y)) := by
    rw [mul_sub, mul_div_cancel₀ x hy]
  obtain ⟨hlt, hsign⟩ := abs_sub_truncRat_lt_one (x / y)
  constructor
  · calc |x - y * truncRat (x / y)|
      _ = |y| * |x / y - truncRat (x / y)| := by rw [hsplit, abs_mul]
      _ < |y| * 1 := mul_lt_mul_of_pos_left hlt (abs_pos.2 hy)
      _ = |y| := mul_one _
  · by_cases hzero : x - y * truncRat (x / y) = 0
    · exact .inl hzero
    · refine .inr (signRat_eq_of_mul_nonneg hzero ?_ ?_)
      · -- zero leaves no remainder
        rintro rfl
        simp [truncRat] at hzero
      · calc (0 : ℚ)
          _ ≤ y ^ 2 * ((x / y - truncRat (x / y)) * (x / y)) := mul_nonneg (sq_nonneg y) hsign
          _ = (x - y * truncRat (x / y)) * x := by
            rw [hsplit]
            field_simp

/-- **Checked arithmetic is exact.** What is computed is well-formed and the result in the rational
numbers; a remainder is smaller than the divisor and has the sign of the dividend. Products and
quotients are missing only if there is no fraction for them. -/
theorem checked_arithmetic (p q : Fraction) :
    (∀ r, p.add? q = some r → r.IsWellFormed ∧ r.toRat = p.toRat + q.toRat) ∧
    (∀ r, p.sub? q = some r → r.IsWellFormed ∧ r.toRat = p.toRat - q.toRat) ∧
    (∀ r, p.mul? q = some r → r.IsWellFormed ∧ r.toRat = p.toRat * q.toRat) ∧
    (∀ r, p.div? q = some r →
      r.IsWellFormed ∧ q.toRat ≠ 0 ∧ r.toRat = p.toRat / q.toRat) ∧
    (∀ r, p.rem? q = some r →
      r.IsWellFormed ∧ q.toRat ≠ 0 ∧
      r.toRat = p.toRat - q.toRat * truncRat (p.toRat / q.toRat) ∧
      |r.toRat| < |q.toRat| ∧ (r.toRat = 0 ∨ signRat r.toRat = signRat p.toRat)) ∧
    (p.mul? q = none ↔ ¬ IsRepresentable (p.toRat * q.toRat)) ∧
    (p.div? q = none ↔ q.toRat = 0 ∨ ¬ IsRepresentable (p.toRat / q.toRat)) := by
  refine ⟨?_, ?_, ?_, ?_, ?_, ?_, ?_⟩
  · intro r h
    obtain ⟨hr, hnegatable⟩ := add?_eq_some h
    exact ⟨isWellFormed_iff.2 hnegatable, hr⟩
  · intro r h
    obtain ⟨hr, hnegatable⟩ := sub?_eq_some h
    exact ⟨isWellFormed_iff.2 hnegatable, hr⟩
  · intro r h
    obtain ⟨hnegatable, hr⟩ := mul?_eq_some_iff.1 h
    exact ⟨isWellFormed_iff.2 hnegatable, hr⟩
  · intro r h
    obtain ⟨hq, hnegatable, hr⟩ := div?_eq_some_iff.1 h
    exact ⟨isWellFormed_iff.2 hnegatable, hq, hr⟩
  · intro r h
    obtain ⟨hq, hr, hnegatable⟩ := rem?_eq_some h
    have hremainder := remainder_spec p.toRat hq
    rw [← hr] at hremainder
    exact ⟨isWellFormed_iff.2 hnegatable, hq, hr, hremainder⟩
  · exact eq_none_iff_not_isRepresentable fun r => mul?_eq_some_iff
  · by_cases hq : q.toRat = 0
    · -- division by zero has no result
      have hnone : p.div? q = none := by rw [div?, if_pos (q.toRat_eq_zero_iff.1 hq)]
      simp [hnone, hq]
    · rw [or_iff_right hq]
      refine eq_none_iff_not_isRepresentable fun r => ?_
      rw [div?_eq_some_iff, and_iff_right hq]

/-- A quotient whose cross product is the smallest integer of 64 bits is missing, and the next one
is not. -/
theorem checked_arithmetic_minInt :
    let p : Fraction := ⟨1, 2 ^ 32, by decide, by decide, by decide, by decide, by decide⟩
    let q : Fraction := ⟨-2 ^ 31, 1, by decide, by decide, by decide, by decide, by decide⟩
    let r : Fraction := ⟨1 - 2 ^ 31, 1, by decide, by decide, by decide, by decide, by decide⟩
    p.div? q = none ∧ p.div? r ≠ none := by
  intro p q r
  constructor
  · exact (checked_arithmetic p q).2.2.2.2.2.2.2 (.inr (by decide +kernel))
  · intro h
    rcases (checked_arithmetic p r).2.2.2.2.2.2.1 h with h | h
    · exact absurd h (by decide +kernel)
    · exact h (by decide +kernel)

/-! ### Powers -/

/-- The parts of a power grow with its exponent. -/
theorem IsRepresentable.of_pow {x : ℚ} {m n : Nat} (h : IsRepresentable (x ^ n)) (hmn : m ≤ n) :
    IsRepresentable (x ^ m) := by
  by_cases hx : x = 0
  · -- the powers of zero are zero and one
    subst hx
    rcases Nat.eq_zero_or_pos m with rfl | hm
    · rw [pow_zero]
      decide
    · rw [zero_pow (Nat.ne_of_gt hm)]
      decide
  · have hnum : 1 ≤ |x.num| := Int.one_le_abs (mt Rat.num_eq_zero.1 hx)
    have hden : (1 : Int) ≤ x.den := Int.natCast_pos.2 x.pos
    rw [IsRepresentable, Rat.num_pow, Rat.den_pow, abs_pow, Nat.cast_pow] at h ⊢
    exact ⟨(pow_le_pow_right₀ hnum hmn).trans h.1, (pow_le_pow_right₀ hden hmn).trans h.2⟩

/-- Where `result` and `square` are powers of one base and the power that is asked for is
representable, square and multiply finds it. -/
theorem exists_powFrom? {x : ℚ} {result square : Fraction} {m k n : Nat}
    (hresult : result.toRat = x ^ m) (hsquare : square.toRat = x ^ k)
    (h : IsRepresentable (x ^ (m + k * n))) : ∃ r, powFrom? result square n = some r := by
  -- a product of two powers that the result contains can be computed
  have hmul : ∀ {p q : Fraction} {i j : Nat}, p.toRat = x ^ i → q.toRat = x ^ j →
      i + j ≤ m + k * n → ∃ r, p.mul? q = some r ∧ r.toRat = x ^ (i + j) := by
    intro p q i j hp hq hle
    obtain ⟨r, hnegatable, hr⟩ := (h.of_pow hle).exists_toRat_eq
    refine ⟨r, mul?_eq_some_iff.2 ⟨hnegatable, ?_⟩, hr⟩
    rw [hr, hp, hq, pow_add]
  induction n using Nat.strongRecOn generalizing result square m k with
  | ind n ih =>
    by_cases hn : n = 0
    · rw [powFrom?, if_pos hn]
      exact ⟨result, rfl⟩
    · rw [powFrom?_of_ne_zero result square hn]
      have hle : k * 1 ≤ k * n := Nat.mul_le_mul_left k (Nat.pos_of_ne_zero hn)
      -- the lowest bit of the exponent
      obtain ⟨next, hnext, hvalue⟩ : ∃ next,
          (if n % 2 = 1 then result.mul? square else some result) = some next ∧
            next.toRat = x ^ (m + k * (n % 2)) := by
        by_cases hodd : n % 2 = 1
        · rw [if_pos hodd, hodd, Nat.mul_one]
          exact hmul hresult hsquare (by omega)
        · rw [if_neg hodd, show n % 2 = 0 by omega, Nat.mul_zero, Nat.add_zero]
          exact ⟨result, rfl, hresult⟩
      rw [hnext, Option.bind_some]
      by_cases hhalf : n / 2 = 0
      · rw [if_pos hhalf]
        exact ⟨next, rfl⟩
      · rw [if_neg hhalf]
        -- a square is computed only if the rest of the exponent uses it
        have htwo : k * 2 ≤ k * n := Nat.mul_le_mul_left k (by omega)
        obtain ⟨squared, hsquared, hvalue'⟩ := hmul hsquare hsquare (by omega)
        rw [hsquared, Option.bind_some]
        have hexponent : m + k * (n % 2) + (k + k) * (n / 2) = m + k * n := by
          calc m + k * (n % 2) + (k + k) * (n / 2)
            _ = m + k * (n % 2 + 2 * (n / 2)) := by ring
            _ = m + k * n := by rw [Nat.mod_add_div]
        refine ih (n / 2) (by omega) hvalue hvalue' ?_ ?_
        · rw [hexponent]
          exact h
        · rw [hexponent]
          exact hmul

/-- A power with an integer exponent is found if it is representable. -/
theorem exists_pow? {base exponent : Fraction} {n : Int} (hn : exponent.toRat = n)
    (hdefined : base.toRat ≠ 0 ∨ 0 ≤ n) (h : IsRepresentable (base.toRat ^ n)) :
    ∃ r, base.pow? exponent = some r := by
  have hone : one.toRat = 1 := by
    rw [one, toRat_ofInt (by decide) (by decide), Int.cast_one]
  have hnum : exponent.numerator = n := by
    rw [show exponent.numerator = exponent.toRat.num from rfl, hn, Rat.num_intCast]
  have hden : exponent.denominator = 1 := by
    rw [show exponent.denominator = exponent.toRat.den from rfl, hn, Rat.den_intCast]
  rw [pow?_of_isInteger base (by simpa [isInteger] using hden), hnum]
  have hstart : ∀ {b : Fraction}, IsRepresentable (b.toRat ^ n.natAbs) →
      ∃ r, powFrom? one b n.natAbs = some r := by
    intro b hb
    refine exists_powFrom? (x := b.toRat) (m := 0) (k := 1) ?_ (pow_one _).symm ?_
    · rw [hone, pow_zero]
    · rwa [Nat.zero_add, Nat.one_mul]
  by_cases hneg : n < 0
  · -- the inverse of the base is its own first power, so it is representable
    have hbase : base.toRat ≠ 0 := hdefined.resolve_right (by omega)
    have habs : n = -(n.natAbs : Int) := by omega
    rw [habs, zpow_neg, zpow_natCast, ← inv_pow] at h
    obtain ⟨inverse, hnegatable, hinverse⟩ :=
      (h.of_pow (show 1 ≤ n.natAbs by omega)).exists_toRat_eq
    rw [pow_one] at hinverse
    have hdiv : one.div? base = some inverse := by
      rw [div?_eq_some_iff, hone, one_div]
      exact ⟨hbase, hnegatable, hinverse⟩
    rw [if_pos hneg, hdiv, Option.bind_some]
    exact hstart (by rwa [hinverse])
  · have habs : n = (n.natAbs : Int) := by omega
    rw [habs, zpow_natCast] at h
    rw [if_neg hneg, Option.bind_some]
    exact hstart h

/-- **A power is exact, and missing only if there is no fraction for it.** The exponent must be an
integer, which must not be negative if the base is zero. -/
theorem pow?_eq_some_iff {base exponent r : Fraction} :
    base.pow? exponent = some r ↔
      ∃ n : ℤ, exponent.toRat = n ∧ (base.toRat ≠ 0 ∨ 0 ≤ n) ∧
        IsRepresentable (base.toRat ^ n) ∧ r.toRat = base.toRat ^ n := by
  constructor
  · intro h
    obtain ⟨hden, hdefined, hr, hnegatable⟩ := pow?_eq_some h
    have hn : exponent.toRat = exponent.toRat.num := ((Rat.den_eq_one_iff _).1 hden).symm
    refine ⟨exponent.toRat.num, hn, hdefined.imp_right Rat.num_nonneg.2, ?_, hr⟩
    rw [← hr]
    exact hnegatable.isRepresentable
  · rintro ⟨n, hn, hdefined, hrepresentable, hr⟩
    obtain ⟨s, hs⟩ := exists_pow? hn hdefined hrepresentable
    -- what is found is the power, and so is `r`
    obtain ⟨-, -, hpow, -⟩ := pow?_eq_some hs
    rw [hn, Rat.num_intCast, ← hr] at hpow
    rw [hs, toRat_injective hpow]

end Abacus.Fraction
