import Abacus.Operation
import Abacus.Proofs.Fraction.WellFormed

/-!
# Rounding to the nearest integer

Fractions are rounded by way of doubles: the parts are converted, their quotient is rounded, and the
nearest integer is taken, halves away from zero. The result is always an integer. Three roundings
to 53 bits make up an error of at most `2 ^ -51` of the fraction in front of the last step
(`IsRoundedQuotient.abs_sub_le`).

With a numerator below `2 ^ 52` the result is the integer nearest to the fraction itself
(`IsRoundedQuotient.floor_eq`). It is not that the quotient of the doubles is exact, but that it
stays on the side of each half on which the fraction is: a half is rounded to itself, so that the
quotient does not step over it (`IsNearest.le_add_half`), and a fraction that is rounded up to a
half from below would be so near to it that its numerator is too large (`IsNearest.add_half_lt`).
The bound cannot be raised (`apply_round_not_nearest`).
-/

namespace Abacus

/-! ### The nearest integer -/

/-- No integer is nearer to a number, and of two that are equally near it is the one farther from
zero. -/
structure IsNearestInteger (n : ℤ) (a : ℚ) : Prop where
  abs_sub_le : |(n : ℚ) - a| ≤ 1 / 2
  away : |(n : ℚ) - a| = 1 / 2 → |a| < |(n : ℚ)|

namespace IsNearestInteger

theorem intCast (n : ℤ) : IsNearestInteger n n := by
  constructor <;> norm_num

theorem neg {n : ℤ} {a : ℚ} (h : IsNearestInteger n a) : IsNearestInteger (-n) (-a) := by
  have hsub : |((-n : ℤ) : ℚ) - -a| = |(n : ℚ) - a| := by
    rw [Int.cast_neg, neg_sub_neg, abs_sub_comm]
  constructor
  · rw [hsub]
    exact h.abs_sub_le
  · rw [hsub, Int.cast_neg, abs_neg, abs_neg]
    exact h.away

theorem eq_floor_or_eq_ceil {n : ℤ} {a : ℚ} (h : IsNearestInteger n a) : n = ⌊a⌋ ∨ n = ⌈a⌉ := by
  obtain ⟨hlower, hupper⟩ := abs_le.1 h.abs_sub_le
  rcases le_total (n : ℚ) a with hle | hle
  · exact .inl (Int.floor_eq_iff.2 ⟨hle, by linarith⟩).symm
  · exact .inr (Int.ceil_eq_iff.2 ⟨by linarith, hle⟩).symm

/-- Halves are rounded alike on both sides of zero. -/
theorem sign_mul {n m : ℤ} {a : ℚ} (hn : n ≠ 0) (h : IsNearestInteger m a) :
    IsNearestInteger (n.sign * m) (n.sign * a) := by
  rcases lt_or_gt_of_ne hn with hneg | hpos
  · rw [Int.sign_eq_neg_one_of_neg hneg, Int.cast_neg, Int.cast_one, neg_one_mul, neg_one_mul]
    exact h.neg
  · rw [Int.sign_eq_one_of_pos hpos, Int.cast_one, one_mul, one_mul]
    exact h

/-- Above zero, halves are rounded up. -/
theorem natFloor {x : ℚ} (hx : 0 ≤ x) : IsNearestInteger ⌊x + 1 / 2⌋₊ x := by
  have hlower := Nat.floor_le (show 0 ≤ x + 1 / 2 by linarith)
  have hupper := Nat.lt_floor_add_one (x + 1 / 2)
  rw [← Int.cast_natCast (R := ℚ)] at hlower hupper
  constructor
  · rw [abs_le]
    constructor <;> linarith
  · intro htie
    rcases abs_eq (by norm_num) |>.1 htie with h | h
    · rw [abs_of_nonneg hx, abs_of_nonneg (by linarith)]
      linarith
    · linarith

end IsNearestInteger

/-! ### Quotients of doubles on either side of a half -/

namespace Binary64

/-- The quotient does not step over a half from above. -/
theorem IsNearest.le_add_half {f x : ℚ} (hf : IsNearest f x) (hx : 0 ≤ x) {k : ℕ} (hk : k ≤ 2 ^ 52)
    (h : (k : ℚ) ≤ x + 1 / 2) : (k : ℚ) ≤ f + 1 / 2 := by
  rcases Nat.eq_zero_or_pos k with rfl | hpos
  · have := hf.nonneg hx
    rw [Nat.cast_zero]
    linarith
  · have hhalf : ((2 * k - 1 : ℕ) : ℚ) / 2 ^ 1 = k - 1 / 2 := by
      rw [Nat.cast_sub (by omega)]
      push_cast
      ring
    have hle := hf.le_of_le (isShort_div_two_pow (by omega) 1) (hhalf.trans_le (by linarith))
    linarith

/-- A natural of at most 53 bits has a multiple by a power of two that has 53. -/
theorem exists_mul_two_pow {c : ℕ} (hpos : 0 < c) (hc : c < 2 ^ 53) :
    ∃ j, 2 ^ 52 ≤ c * 2 ^ j ∧ c * 2 ^ j < 2 ^ 53 := by
  have hlog : c.log2 ≤ 52 := Nat.lt_succ_iff.1 ((Nat.log2_lt hpos.ne').2 hc)
  have hlower := Nat.log2_self_le hpos.ne'
  have hupper := Nat.lt_log2_self (n := c)
  have hpow : 0 < 2 ^ (52 - c.log2) := by positivity
  refine ⟨52 - c.log2, ?_, ?_⟩
  · calc 2 ^ 52 = 2 ^ c.log2 * 2 ^ (52 - c.log2) := by
          rw [← pow_add, Nat.add_sub_cancel' hlog]
      _ ≤ c * 2 ^ (52 - c.log2) := Nat.mul_le_mul_right _ hlower
  · calc c * 2 ^ (52 - c.log2) < 2 ^ (c.log2 + 1) * 2 ^ (52 - c.log2) :=
          Nat.mul_lt_mul_of_pos_right hupper hpow
      _ = 2 ^ 53 := by
          rw [← pow_add]
          congr 1
          omega

/-- Between a half and the number of 53 bits below it, only what is in the upper half of the unit is
rounded up. -/
theorem IsNearest.sub_le_of_le {f x : ℚ} (hf : IsNearest f x) {c j : ℕ} (hpos : 0 < c)
    (hc : c * 2 ^ j ≤ 2 ^ 53) (hx : x < c / 2) (hle : c / 2 ≤ f) :
    (c : ℚ) / 2 - 1 / (4 * 2 ^ j) ≤ x := by
  have hone : 1 ≤ c * 2 ^ j := Nat.mul_pos hpos (by positivity)
  let y : ℚ := (c * 2 ^ j - 1 : ℕ) / 2 ^ (j + 1)
  have hy : y = c / 2 - 2 * (1 / (4 * 2 ^ j)) := by
    simp only [y]
    rw [Nat.cast_sub hone, pow_succ]
    push_cast
    field_simp
    ring
  have hunit : (0 : ℚ) < 1 / (4 * 2 ^ j) := by positivity
  have habs := hf.abs_sub_le y (isShort_div_two_pow (by omega) (j + 1))
  rw [abs_of_nonneg (by linarith)] at habs
  rcases le_total x y with hbelow | habove
  · -- then it would be rounded to `y` at most
    rw [abs_of_nonneg (by linarith)] at habs
    linarith
  · rw [abs_of_nonpos (by linarith)] at habs
    linarith

/-- A fraction that is near to a half from below has a large divisor, and so a large numerator. -/
theorem le_of_near_half {n d c u : ℕ} (hd : 0 < d) (hu : 0 < u) (hless : (n : ℚ) / d < c / 2)
    (hnear : (c : ℚ) / 2 - 1 / (4 * u) ≤ n / d) : 2 * (c * u) ≤ 2 * n + 1 := by
  have hd' : (0 : ℚ) < d := by exact_mod_cast hd
  have hu' : (0 : ℚ) < u := by exact_mod_cast hu
  have hless : 2 * n + 1 ≤ c * d := by
    rw [div_lt_div_iff₀ hd' two_pos] at hless
    have : (2 * n : ℚ) < c * d := by linarith
    exact_mod_cast this
  have hnear : 2 * (c * u) * d ≤ 4 * u * n + d := by
    rw [le_div_iff₀ hd', div_sub_div _ _ two_ne_zero (by positivity), div_mul_eq_mul_div,
      div_le_iff₀ (by positivity)] at hnear
    have : (2 * (c * u) * d : ℚ) ≤ 4 * u * n + d := by linarith
    exact_mod_cast this
  -- what is below the half is so by `1 / 2d` at least
  have hdivisor : 2 * u ≤ d := by
    have := Nat.mul_le_mul_left (2 * u) hless
    linarith
  refine Nat.le_of_mul_le_mul_left ?_ hd
  have := Nat.mul_le_mul_right n hdivisor
  linarith

/-- **Nor from below,** if the numerator is small. -/
theorem IsNearest.add_half_lt {f : ℚ} {n d k : ℕ} (hf : IsNearest f (n / d)) (hn : n < 2 ^ 52)
    (hd : 0 < d) (hk : k ≤ 2 ^ 51) (h : (n : ℚ) / d < k + 1 / 2) : f < k + 1 / 2 := by
  have hhalf : (k : ℚ) + 1 / 2 = ((2 * k + 1 : ℕ) : ℚ) / 2 := by
    push_cast
    ring
  rw [hhalf] at h ⊢
  by_contra hle
  obtain ⟨j, hlower, hupper⟩ := exists_mul_two_pow (c := 2 * k + 1) (by omega) (by omega)
  have hnear := hf.sub_le_of_le (by omega) hupper.le h (not_lt.1 hle)
  have hnumerator := le_of_near_half (u := 2 ^ j) hd (by positivity) h (by exact_mod_cast hnear)
  omega

/-- A quotient that is rounded once has the same nearest integer. -/
theorem IsNearest.floor_eq {f : ℚ} {n d : ℕ} (hf : IsNearest f (n / d)) (hn : n < 2 ^ 52)
    (hd : 2 ≤ d) : ⌊f + 1 / 2⌋₊ = ⌊(n : ℚ) / d + 1 / 2⌋₊ := by
  have hd' : (2 : ℚ) ≤ d := by exact_mod_cast hd
  have hn' : (n : ℚ) < 2 ^ 52 := by exact_mod_cast hn
  have hx : (0 : ℚ) ≤ n / d := by positivity
  have hlower := Nat.floor_le (show 0 ≤ (n : ℚ) / d + 1 / 2 by linarith)
  have hupper := Nat.lt_floor_add_one ((n : ℚ) / d + 1 / 2)
  generalize ⌊(n : ℚ) / d + 1 / 2⌋₊ = k at hlower hupper ⊢
  have hk : k ≤ 2 ^ 51 := by
    have hquotient : (n : ℚ) / d < 2 ^ 51 := by
      rw [div_lt_iff₀ (by linarith)]
      linarith
    have : (k : ℚ) < (2 ^ 51 + 1 : ℕ) := by
      push_cast
      linarith
    exact Nat.lt_succ_iff.1 (by exact_mod_cast this)
  -- the quotient lies between the halves around this natural, and so does what it is rounded to
  have hf₀ := hf.nonneg hx
  have hlt := hf.add_half_lt hn (by omega) hk (by linarith)
  rw [Nat.floor_eq_iff (by linarith)]
  exact ⟨hf.le_add_half hx (by omega) hlower, by linarith⟩

/-- **The nearest integer is not changed by rounding the quotient** of a numerator below
`2 ^ 52`. -/
theorem IsRoundedQuotient.floor_eq {f : ℚ} {n d : ℕ} (h : IsRoundedQuotient f n d)
    (hn : n < 2 ^ 52) (hd : 2 ≤ d) : ⌊f + 1 / 2⌋₊ = ⌊(n : ℚ) / d + 1 / 2⌋₊ := by
  obtain ⟨a, b, ha, hb, hf⟩ := h
  rw [ha.eq_of_isShort (isShort_natCast (by omega))] at hf
  rcases Nat.lt_or_ge (2 ^ 53) d with hlarge | hsmall
  · -- the divisor is rounded as well, but not below `2 ^ 53`, and both quotients are less than half
    have hlarge : (2 : ℚ) ^ 53 ≤ d := by exact_mod_cast hlarge.le
    have hb' : 2 ^ 53 ≤ b := hb.le_of_le (isShort_two_pow 53) hlarge
    have hn' : (n : ℚ) ≤ 2 ^ 52 - 1 := by
      have : (n : ℚ) + 1 ≤ 2 ^ 52 := by exact_mod_cast hn
      linarith
    have hbound : ∀ c : ℚ, 2 ^ 53 ≤ c → n / c ≤ ((2 ^ 52 - 1 : ℕ) : ℚ) / 2 ^ 53 := fun c hc => by
      have hc' : (0 : ℚ) < c := by linarith
      rw [div_le_div_iff₀ hc' (by positivity)]
      push_cast
      nlinarith
    have hf' := hf.ge_of_ge (isShort_div_two_pow (by norm_num) 53) (hbound b hb')
    have hx := hbound d hlarge
    rw [Nat.floor_eq_zero.2 (by norm_num at hf'; linarith),
      Nat.floor_eq_zero.2 (by norm_num at hx; linarith)]
  · rw [hb.eq_of_isShort (isShort_natCast hsmall)] at hf
    exact hf.floor_eq hn hd

/-- **Three roundings to 53 bits** change a quotient by at most four halves of the last bit. -/
theorem IsRoundedQuotient.abs_sub_le {f : ℚ} {n d : ℕ} (h : IsRoundedQuotient f n d)
    (hd : 0 < d) : |f - n / d| ≤ n / d / 2 ^ 51 := by
  obtain ⟨a, b, ha, hb, hf⟩ := h
  have hd' : (0 : ℚ) < d := by exact_mod_cast hd
  have hn' : (0 : ℚ) ≤ n := Nat.cast_nonneg n
  obtain ⟨ha₁, ha₂⟩ := abs_le.1 ha.error_le
  obtain ⟨hb₁, hb₂⟩ := abs_le.1 hb.error_le
  obtain ⟨hf₁, hf₂⟩ := abs_le.1 hf.error_le
  have hb' : 0 < b := by linarith
  have hn : (n : ℚ) / d * d = n := div_mul_cancel₀ _ hd'.ne'
  have hx : (0 : ℚ) ≤ n / d := by positivity
  generalize (n : ℚ) / d = x at *
  -- the quotient of the rounded parts
  have hupper : a / b ≤ x * (1 + 5 / 2 / 2 ^ 53) := by
    rw [div_le_iff₀ hb']
    nlinarith
  have hlower : x * (1 - 2 / 2 ^ 53) ≤ a / b := by
    rw [le_div_iff₀ hb']
    nlinarith
  rw [abs_le]
  constructor <;> linarith

end Binary64

/-! ### Fractions -/

namespace Fraction

open Binary64 (minInt maxInt IsRoundedQuotient)

theorem toRat_eq_sign_mul (q : Fraction) :
    q.toRat = q.numerator.sign * ((q.numerator.natAbs : ℚ) / q.denominator) := by
  rw [toRat_eq_div, ← mul_div_assoc, ← Int.cast_natCast (R := ℚ) q.numerator.natAbs,
    ← Int.cast_mul, Int.sign_mul_natAbs]

theorem abs_sign_mul {n : ℤ} (hn : n ≠ 0) (a : ℚ) : |(n.sign : ℚ) * a| = |a| := by
  rcases lt_or_gt_of_ne hn with hneg | hpos
  · rw [Int.sign_eq_neg_one_of_neg hneg, Int.cast_neg, Int.cast_one, neg_one_mul, abs_neg]
  · rw [Int.sign_eq_one_of_pos hpos, Int.cast_one, one_mul]

/-- A fraction that is no integer is rounded by way of the quotient of its parts as doubles. -/
theorem exists_toRat_round {q : Fraction} (h : q.IsNegatable) (hinteger : ¬ q.isInteger) :
    ∃ f, IsRoundedQuotient f q.numerator.natAbs q.denominator ∧
      q.round.toRat = ((q.numerator.sign * ⌊f + 1 / 2⌋₊ : ℤ) : ℚ) := by
  obtain ⟨hn, hn', hd, hd'⟩ := h.parts_of_not_isInteger hinteger
  obtain ⟨f, hf, hvalue⟩ := Binary64.exists_roundedHalfAway_div hn hn' hd hd'
  have hle := hf.floor_le hn' hd
  have hsign : (q.numerator.sign * ⌊f + 1 / 2⌋₊ : ℤ).natAbs ≤ 2 ^ 62 := by
    rw [Int.natAbs_mul, Int.natAbs_natCast, Int.natAbs_sign_of_ne_zero hn, one_mul]
    exact hle
  refine ⟨f, hf, ?_⟩
  have hround : q.round = ofInt (q.numerator.sign * ⌊f + 1 / 2⌋₊) := by
    rw [Fraction.round, if_neg hinteger, ← hvalue]
    rfl
  rw [hround, toRat_ofInt]
  · simp only [minInt]
    omega
  · simp only [maxInt]
    omega

theorem apply_round_eq (q : Fraction) (context : OperationContext) :
    Operator.apply .round context [.rational q] = .ok (.rational q.round) := rfl

/-- **Fractions are rounded to an integer,** which is the nearest one if the fraction is an integer
or its numerator is small. -/
theorem apply_round {q : Fraction} (h : q.IsWellFormed) (context : OperationContext) :
    ∃ (r : Fraction) (n : ℤ), Operator.apply .round context [.rational q] = .ok (.rational r) ∧
      r.toRat = n ∧ |(n : ℚ) - q.toRat| ≤ 1 / 2 + |q.toRat| / 2 ^ 51 ∧
      (q.denominator = 1 ∨ |q.numerator| < 2 ^ 52 →
        IsNearestInteger n q.toRat ∧ (n = ⌊q.toRat⌋ ∨ n = ⌈q.toRat⌉)) := by
  suffices hround : ∃ n : ℤ, q.round.toRat = n ∧
      |(n : ℚ) - q.toRat| ≤ 1 / 2 + |q.toRat| / 2 ^ 51 ∧
      (q.denominator = 1 ∨ |q.numerator| < 2 ^ 52 → IsNearestInteger n q.toRat) by
    obtain ⟨n, hn, hle, hnearest⟩ := hround
    refine ⟨q.round, n, apply_round_eq q context, hn, hle, fun hsmall => ?_⟩
    exact ⟨hnearest hsmall, (hnearest hsmall).eq_floor_or_eq_ceil⟩
  by_cases hinteger : q.isInteger
  · have hd : q.denominator = 1 := by simpa [isInteger] using hinteger
    have hq : q.toRat = q.numerator := by rw [toRat_eq_div, hd, Nat.cast_one, div_one]
    refine ⟨q.numerator, ?_, ?_, fun _ => hq ▸ .intCast q.numerator⟩
    · rw [round, if_pos hinteger, hq]
    · rw [hq, sub_self, abs_zero]
      positivity
  · have hnegatable := isWellFormed_iff.1 h
    obtain ⟨hn, hn', hd, -⟩ := hnegatable.parts_of_not_isInteger hinteger
    obtain ⟨f, hf, hvalue⟩ := exists_toRat_round hnegatable hinteger
    refine ⟨_, hvalue, ?_, fun hsmall => ?_⟩
    · have hnear := (IsNearestInteger.natFloor (hf.bounds hn' hd).1).abs_sub_le
      have herror := hf.abs_sub_le (by omega)
      rw [Int.cast_mul, toRat_eq_sign_mul, ← mul_sub, abs_sign_mul hn, abs_sign_mul hn]
      rw [abs_of_nonneg (by positivity : (0 : ℚ) ≤ q.numerator.natAbs / q.denominator)]
      exact (abs_sub_le _ f _).trans (add_le_add hnear herror)
    · have hlt : q.numerator.natAbs < 2 ^ 52 := by
        have habs := hsmall.resolve_left (by omega)
        rw [Int.abs_eq_natAbs] at habs
        exact_mod_cast habs
      rw [hf.floor_eq hlt hd, toRat_eq_sign_mul]
      exact (IsNearestInteger.natFloor (by positivity)).sign_mul hn

/-- A half below zero, and a half with the largest numerator. -/
theorem apply_round_halves :
    let context : OperationContext := ⟨.radians, {}⟩
    let q : Fraction := ⟨-5, 2, by decide, by decide, by decide, by decide, by decide⟩
    let r : Fraction :=
      ⟨4503599627370495, 2, by decide, by decide, by decide, by decide, by decide⟩
    (∃ (r : Fraction) (n : ℤ), Operator.apply .round context [.rational q] = .ok (.rational r) ∧
      r.toRat = n ∧ IsNearestInteger n q.toRat) ∧
      ∃ (r' : Fraction) (n : ℤ), Operator.apply .round context [.rational r] = .ok (.rational r') ∧
        r'.toRat = n ∧ IsNearestInteger n r.toRat := by
  intro context q r
  constructor
  · obtain ⟨r, n, happly, hn, -, hnearest⟩ := apply_round (q := q) (by decide) context
    exact ⟨r, n, happly, hn, (hnearest (.inr (by decide))).1⟩
  · obtain ⟨r, n, happly, hn, -, hnearest⟩ := apply_round (q := r) (by decide) context
    exact ⟨r, n, happly, hn, (hnearest (.inr (by decide))).1⟩

/-- With larger numerators the result may be far away, or on the wrong side of a half. -/
theorem apply_round_not_nearest :
    let context : OperationContext := ⟨.radians, {}⟩
    let q : Fraction :=
      ⟨4611686018427388415, 2, by decide, by decide, by decide, by decide, by decide⟩
    let r : Fraction :=
      ⟨4503599627370496, 9007199254740993, by decide, by decide, by decide, by decide, by decide⟩
    (q.IsWellFormed ∧ Operator.apply .round context [.rational q] =
        .ok (.rational (ofInt 2305843009213693952)) ∧
      255 < |(ofInt 2305843009213693952).toRat - q.toRat| ∧
      2305843009213693952 ≠ ⌊q.toRat⌋ ∧ 2305843009213693952 ≠ ⌈q.toRat⌉) ∧
      r.IsWellFormed ∧ Operator.apply .round context [.rational r] = .ok (.rational (ofInt 1)) ∧
        1 / 2 < |(ofInt 1).toRat - r.toRat| := by
  intro context q r
  have hq : q.round = ofInt 2305843009213693952 := by decide +kernel
  have hr : r.round = ofInt 1 := by decide +kernel
  refine ⟨⟨by decide, ?_, by decide +kernel, by decide +kernel, by decide +kernel⟩, by decide, ?_,
    by decide +kernel⟩
  · rw [apply_round_eq, hq]
  · rw [apply_round_eq, hr]

end Fraction

end Abacus
