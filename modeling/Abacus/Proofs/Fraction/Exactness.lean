import Abacus.Proofs.Fraction.Quotients

/-!
# Checked arithmetic is exact

Where an operation on fractions has a result, the result is that of the rational numbers, and it can
be negated. Products and quotients are known exactly (`Fraction.mul?_eq_some_iff` and
`Fraction.div?_eq_some_iff`), sums go through the least common denominator, and remainders and
powers are made of these. Powers are computed by squaring: what has been multiplied, times the power
that is left, is the power that was asked for.
-/

namespace Abacus

/-! ### Arithmetic of rational numbers -/

/-- A rational number without its fractional part. -/
def truncRat (a : ℚ) : ℤ := if 0 ≤ a then ⌊a⌋ else ⌈a⌉

/-- The sign of a rational number. -/
def signRat (a : ℚ) : ℤ := if 0 < a then 1 else if a < 0 then -1 else 0

/-- The result of an operation on rational numbers, where it is defined. Divisors are not zero,
exponents are integers, and zero has no negative powers; its power zero is one. -/
def Arith.onRats? : Arith → ℚ → ℚ → Option ℚ
  | .add, a, b => some (a + b)
  | .sub, a, b => some (a - b)
  | .mul, a, b => some (a * b)
  | .div, a, b => if b = 0 then none else some (a / b)
  | .pow, a, b => if b.den = 1 ∧ (a ≠ 0 ∨ 0 ≤ b) then some (a ^ b.num) else none
  | .rem, a, b => if b = 0 then none else some (a - b * truncRat (a / b))

namespace Fraction

open Binary64 (minInt maxInt)

/-! ### Sums -/

/-- An integer over a denominator, written over a multiple of the denominator. -/
theorem cast_over_multiple {b l : Int} (a : Int) (hb : b ≠ 0) (hl : l ≠ 0) (hdvd : b ∣ l) :
    ((l / b * a : Int) : ℚ) / l = a / b := by
  have hb : (b : ℚ) ≠ 0 := Int.cast_ne_zero.2 hb
  have hl : (l : ℚ) ≠ 0 := Int.cast_ne_zero.2 hl
  rw [Int.cast_mul, Int.cast_div hdvd hb]
  field_simp

/-- Two fractions over their least common denominator are worth what they were. -/
theorem common?_eq_some {p q : Fraction} {x y l : Int} (h : common? p q = some (x, y, l)) :
    p.toRat = x / l ∧ q.toRat = y / l := by
  simp only [common?, Option.bind_eq_bind, Option.bind_eq_some_iff, word?_eq_some_iff,
    Option.some.injEq, Prod.mk.injEq] at h
  obtain ⟨_, ⟨hl, -⟩, _, ⟨hx, -⟩, _, ⟨hy, -⟩, rfl, rfl, rfl⟩ := h
  have hb : (p.denominator : Int) ≠ 0 := Int.natCast_ne_zero.2 (Nat.ne_of_gt p.denominator_pos)
  have hd : (q.denominator : Int) ≠ 0 := Int.natCast_ne_zero.2 (Nat.ne_of_gt q.denominator_pos)
  obtain ⟨b, hpb⟩ := Int.natCast_dvd_natCast.2 (Nat.gcd_dvd_left p.denominator q.denominator)
  obtain ⟨d, hqd⟩ := Int.natCast_dvd_natCast.2 (Nat.gcd_dvd_right p.denominator q.denominator)
  have hg : ((p.denominator.gcd q.denominator : Nat) : Int) ≠ 0 := by
    rintro hg
    rw [hg, zero_mul] at hpb
    exact hb hpb
  have hquotient : (p.denominator : Int) / (p.denominator.gcd q.denominator : Nat) = b := by
    conv_lhs => rw [hpb]
    exact Int.mul_ediv_cancel_left b hg
  -- so the least common denominator is `b` times the second denominator, and `d` times the first
  rw [hquotient] at hl
  have hb' : b ≠ 0 := by
    rintro rfl
    rw [mul_zero] at hpb
    exact hb hpb
  have hlp : (p.denominator : Int) ∣ b * q.denominator := by
    refine ⟨d, ?_⟩
    calc b * (q.denominator : Int)
      _ = b * ((p.denominator.gcd q.denominator : Nat) * d) := by rw [← hqd]
      _ = (p.denominator.gcd q.denominator : Nat) * b * d := by ring
      _ = p.denominator * d := by rw [← hpb]
  have hlq : (q.denominator : Int) ∣ b * q.denominator := ⟨b, mul_comm _ _⟩
  have hne : b * (q.denominator : Int) ≠ 0 := mul_ne_zero hb' hd
  rw [← hx, ← hy, ← hl, toRat_eq_div, toRat_eq_div, cast_over_multiple _ hb hne hlp,
    cast_over_multiple _ hd hne hlq, Int.cast_natCast, Int.cast_natCast]
  exact ⟨rfl, rfl⟩

/-- **Sums are exact.** -/
theorem add?_eq_some {p q r : Fraction} (h : p.add? q = some r) :
    r.toRat = p.toRat + q.toRat ∧ r.IsNegatable := by
  simp only [add?, Option.bind_eq_bind, Option.bind_eq_some_iff, word?_eq_some_iff] at h
  obtain ⟨⟨x, y, l⟩, hcommon, _, ⟨rfl, -⟩, hparts⟩ := h
  obtain ⟨hp, hq⟩ := common?_eq_some hcommon
  obtain ⟨-, hnegatable, hr⟩ := ofParts?_eq_some_iff.1 hparts
  rw [hr, hp, hq, Int.cast_add, add_div]
  exact ⟨rfl, hnegatable⟩

/-- **Differences are exact.** -/
theorem sub?_eq_some {p q r : Fraction} (h : p.sub? q = some r) :
    r.toRat = p.toRat - q.toRat ∧ r.IsNegatable := by
  simp only [sub?, Option.bind_eq_bind, Option.bind_eq_some_iff, word?_eq_some_iff] at h
  obtain ⟨⟨x, y, l⟩, hcommon, _, ⟨rfl, -⟩, hparts⟩ := h
  obtain ⟨hp, hq⟩ := common?_eq_some hcommon
  obtain ⟨-, hnegatable, hr⟩ := ofParts?_eq_some_iff.1 hparts
  rw [hr, hp, hq, Int.cast_sub, sub_div]
  exact ⟨rfl, hnegatable⟩

/-! ### Signs and rounding -/

theorem neg_toRat {q : Fraction} (h : q.IsNegatable) : q.neg.toRat = -q.toRat := by
  rw [toRat_eq_div, toRat_eq_div, neg, dif_neg h, Int.cast_neg, neg_div]

theorem IsNegatable.neg {q : Fraction} (h : q.IsNegatable) : q.neg.IsNegatable := by
  -- the largest integer becomes the smallest that can be negated
  have := q.le_maxInt
  have hneg : q.neg.numerator = -q.numerator := by rw [Fraction.neg, dif_neg h]
  refine isNegatable_of_neg_maxInt_le ?_
  omega

theorem toRat_neg_iff (q : Fraction) : q.toRat < 0 ↔ q.numerator < 0 := Rat.num_neg.symm

theorem toRat_pos_iff (q : Fraction) : 0 < q.toRat ↔ 0 < q.numerator := Rat.num_pos.symm

theorem abs_toRat {q : Fraction} (h : q.IsNegatable) : q.abs.toRat = |q.toRat| := by
  by_cases hneg : q.numerator < 0
  · rw [abs, if_pos hneg, neg_toRat h, abs_of_neg (q.toRat_neg_iff.2 hneg)]
  · rw [abs, if_neg hneg, abs_of_nonneg (not_lt.1 (mt q.toRat_neg_iff.1 hneg))]

theorem IsNegatable.abs {q : Fraction} (h : q.IsNegatable) : q.abs.IsNegatable := by
  rw [Fraction.abs]
  split
  · exact h.neg
  · exact h

/-- The quotient of the parts, rounded towards zero. -/
theorem truncRat_toRat (q : Fraction) : truncRat q.toRat = q.numerator.tdiv q.denominator := by
  rw [truncRat]
  split
  · -- the quotient is rounded down
    next h =>
    have hn : 0 ≤ q.numerator := Rat.num_nonneg.2 h
    rw [toRat_eq_div, Rat.floor_intCast_div_natCast, Int.tdiv_eq_ediv_of_nonneg hn]
  · -- the quotient is rounded up, which is rounding its negative down
    next h =>
    have hn : 0 ≤ -q.numerator := by
      have := q.toRat_neg_iff.1 (not_le.1 h)
      omega
    rw [toRat_eq_div, Rat.ceil_intCast_div_natCast, ← Int.tdiv_eq_ediv_of_nonneg hn, Int.neg_tdiv,
      neg_neg]

theorem trunc_toRat {q : Fraction} (h : q.IsNegatable) :
    q.trunc.toRat = truncRat q.toRat ∧ q.trunc.IsNegatable := by
  -- the quotient is not larger than the numerator, so it fits where the numerator does
  have hle := Int.natAbs_tdiv_le_natAbs q.numerator q.denominator
  have hmin := neg_maxInt_le_of_isNegatable h
  have hmax := q.le_maxInt
  have hfits : -maxInt ≤ q.numerator.tdiv q.denominator ∧
      q.numerator.tdiv q.denominator ≤ maxInt := by omega
  rw [trunc, truncRat_toRat]
  exact ⟨toRat_ofInt (minInt_le_of_neg_maxInt_le hfits.1) hfits.2,
    isNegatable_ofInt hfits.1 hfits.2⟩

theorem toRat_ofInt_sign (q : Fraction) :
    (ofInt q.sign).toRat = signRat q.toRat ∧ (ofInt q.sign).IsNegatable := by
  have hsign : signRat q.toRat = q.sign := by
    simp only [signRat, toRat_pos_iff, toRat_neg_iff, sign]
    rcases lt_trichotomy q.numerator 0 with h | h | h
    · rw [if_neg (by omega), if_pos h, Int.sign_eq_neg_one_of_neg h]
    · rw [if_neg (by omega), if_neg (by omega), h, Int.sign_zero]
    · rw [if_pos h, Int.sign_eq_one_of_pos h]
  -- a sign is one of three small integers
  have hfits : -1 ≤ q.sign ∧ q.sign ≤ 1 := by
    rw [← hsign, signRat]
    split
    · decide
    · split <;> decide
  have hmin : -maxInt ≤ q.sign := by
    simp only [maxInt]
    omega
  have hmax : q.sign ≤ maxInt := by
    simp only [maxInt]
    omega
  rw [hsign]
  exact ⟨toRat_ofInt (minInt_le_of_neg_maxInt_le hmin) hmax, isNegatable_ofInt hmin hmax⟩

/-! ### Remainders and powers -/

/-- **Remainders are exact**, and their divisors are not zero. -/
theorem rem?_eq_some {p q r : Fraction} (h : p.rem? q = some r) :
    q.toRat ≠ 0 ∧ r.toRat = p.toRat - q.toRat * truncRat (p.toRat / q.toRat) ∧ r.IsNegatable := by
  simp only [rem?, Option.bind_eq_bind, Option.bind_eq_some_iff] at h
  obtain ⟨quotient, hquotient, product, hproduct, hsub⟩ := h
  obtain ⟨hq, hnegatable, hquotient⟩ := div?_eq_some_iff.1 hquotient
  obtain ⟨htrunc, -⟩ := trunc_toRat hnegatable
  obtain ⟨-, hproduct⟩ := mul?_eq_some_iff.1 hproduct
  obtain ⟨hr, hnegatable⟩ := sub?_eq_some hsub
  refine ⟨hq, ?_, hnegatable⟩
  rw [hr, hproduct, htrunc, hquotient, mul_comm]

theorem powFrom?_of_ne_zero (result square : Fraction) {n : Nat} (hn : n ≠ 0) :
    powFrom? result square n =
      (if n % 2 = 1 then result.mul? square else some result).bind fun result =>
        if n / 2 = 0 then some result
        else (square.mul? square).bind fun square => powFrom? result square (n / 2) := by
  rw [powFrom?, if_neg hn]
  by_cases hodd : n % 2 = 1
  · rw [if_pos hodd, if_pos hodd]
    rfl
  · rw [if_neg hodd, if_neg hodd]
    rfl

theorem pow?_of_isInteger (base : Fraction) {exponent : Fraction} (h : exponent.isInteger) :
    base.pow? exponent =
      (if exponent.numerator < 0 then one.div? base else some base).bind fun base =>
        powFrom? one base exponent.numerator.natAbs := by
  rw [pow?, if_pos h]
  by_cases hneg : exponent.numerator < 0
  · rw [if_pos hneg, if_pos hneg]
    rfl
  · rw [if_neg hneg, if_neg hneg]
    rfl

/-- **Square and multiply.** The bits of the exponent are taken from the lowest on. -/
theorem powFrom?_eq_some {result square r : Fraction} {n : Nat} (hresult : result.IsNegatable)
    (h : powFrom? result square n = some r) :
    r.toRat = result.toRat * square.toRat ^ n ∧ r.IsNegatable := by
  induction n using Nat.strongRecOn generalizing result square with
  | ind n ih =>
    by_cases hn : n = 0
    · rw [powFrom?, if_pos hn] at h
      obtain rfl := Option.some.inj h
      rw [hn, pow_zero, mul_one]
      exact ⟨rfl, hresult⟩
    · rw [powFrom?_of_ne_zero result square hn] at h
      obtain ⟨next, hnext, h⟩ := Option.bind_eq_some_iff.1 h
      -- the lowest bit of the exponent
      have hbit : next.toRat = result.toRat * square.toRat ^ (n % 2) ∧ next.IsNegatable := by
        split at hnext
        · next hodd =>
          rw [hodd, pow_one]
          exact (mul?_eq_some_iff.1 hnext).symm
        · next heven =>
          obtain rfl := Option.some.inj hnext
          rw [show n % 2 = 0 by omega, pow_zero, mul_one]
          exact ⟨rfl, hresult⟩
      split at h
      · -- it is the only one
        next hhalf =>
        obtain rfl := Option.some.inj h
        rw [show n % 2 = n by omega] at hbit
        exact hbit
      · -- the other bits count squares of the square
        obtain ⟨squared, hsquared, h⟩ := Option.bind_eq_some_iff.1 h
        obtain ⟨-, hsquared⟩ := mul?_eq_some_iff.1 hsquared
        obtain ⟨hr, hnegatable⟩ := ih (n / 2) (by omega) hbit.2 h
        refine ⟨?_, hnegatable⟩
        calc r.toRat
          _ = result.toRat * square.toRat ^ (n % 2) * (square.toRat * square.toRat) ^ (n / 2) := by
            rw [hr, hbit.1, hsquared]
          _ = result.toRat * square.toRat ^ (n % 2 + 2 * (n / 2)) := by
            rw [pow_add, pow_mul, sq, mul_assoc]
          _ = result.toRat * square.toRat ^ n := by rw [Nat.mod_add_div]

/-- **Powers are exact.** Their exponents are integers, and a negative one has a base that is not
zero. -/
theorem pow?_eq_some {base exponent r : Fraction} (h : base.pow? exponent = some r) :
    exponent.toRat.den = 1 ∧ (base.toRat ≠ 0 ∨ 0 ≤ exponent.toRat) ∧
      r.toRat = base.toRat ^ exponent.toRat.num ∧ r.IsNegatable := by
  have hone : one.toRat = 1 := by
    rw [one, toRat_ofInt (by decide) (by decide), Int.cast_one]
  have hnum : exponent.toRat.num = exponent.numerator := rfl
  by_cases hinteger : exponent.isInteger
  · have hden : exponent.denominator = 1 := by simpa [isInteger] using hinteger
    rw [pow?_of_isInteger base hinteger] at h
    obtain ⟨base', hbase, h⟩ := Option.bind_eq_some_iff.1 h
    obtain ⟨hr, hnegatable⟩ := powFrom?_eq_some (by decide) h
    rw [hone, one_mul] at hr
    refine ⟨hden, ?_⟩
    split at hbase
    · -- the power of the inverse
      next hneg =>
      obtain ⟨hne, -, hinverse⟩ := div?_eq_some_iff.1 hbase
      refine ⟨.inl hne, ?_, hnegatable⟩
      rw [hr, hinverse, hone, hnum, one_div, inv_pow, ← zpow_natCast, ← zpow_neg]
      congr 1
      omega
    · -- the power of the base itself
      next hnonneg =>
      obtain rfl := Option.some.inj hbase
      refine ⟨.inr (Rat.num_nonneg.1 (not_lt.1 hnonneg)), ?_, hnegatable⟩
      rw [hr, hnum, ← zpow_natCast]
      congr 1
      omega
  · rw [pow?, if_neg hinteger] at h
    cases h

/-- **Checked arithmetic is exact.** Where an operation on fractions has a result, the operation on
rational numbers is defined and has the same result. -/
theorem arith?_eq_some {op : Arith} {p q r : Fraction} (h : arith? op p q = some r) :
    op.onRats? p.toRat q.toRat = some r.toRat ∧ r.IsNegatable := by
  cases op with
  | add =>
    obtain ⟨hr, hnegatable⟩ := add?_eq_some h
    exact ⟨congrArg some hr.symm, hnegatable⟩
  | sub =>
    obtain ⟨hr, hnegatable⟩ := sub?_eq_some h
    exact ⟨congrArg some hr.symm, hnegatable⟩
  | mul =>
    obtain ⟨hnegatable, hr⟩ := mul?_eq_some_iff.1 h
    exact ⟨congrArg some hr.symm, hnegatable⟩
  | div =>
    -- here and below the operation on rational numbers has to be defined
    obtain ⟨hq, hnegatable, hr⟩ := div?_eq_some_iff.1 h
    rw [Arith.onRats?, if_neg hq, hr]
    exact ⟨rfl, hnegatable⟩
  | pow =>
    obtain ⟨hden, hdefined, hr, hnegatable⟩ := pow?_eq_some h
    rw [Arith.onRats?, if_pos ⟨hden, hdefined⟩, hr]
    exact ⟨rfl, hnegatable⟩
  | rem =>
    obtain ⟨hq, hr, hnegatable⟩ := rem?_eq_some h
    rw [Arith.onRats?, if_neg hq, hr]
    exact ⟨rfl, hnegatable⟩

end Fraction

end Abacus
