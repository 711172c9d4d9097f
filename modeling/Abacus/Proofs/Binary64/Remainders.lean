import Abacus.Proofs.Binary64.Floor

/-!
# What a floor leaves over

A double less its floor lies between zero and one (`HasValue.exists_sub_floor`), and one divided by
what lies there is one or more, or infinite if the divisor is too small (`HasValue.one_div`). Both
ends occur: just below an integer the difference may be rounded to one.

Differences and quotients are rounded to the nearest double, and rounding does not step over one.
That the difference is not too small to be rounded like this has two reasons. With an exponent of
`-1022` or more it is a multiple of `2 ^ -1022`. With a smaller exponent the double is so near to
zero that the floor is zero, in which case nothing is rounded, or `-1`, in which case the difference
is near to one (`Parts.IsNormal.le_sub_floor`).
-/

namespace Abacus.Binary64

open Float.Model (Format UnpackedFloat totalExponent)

/-! ### Rounding an exact number -/

theorem describes_exact (m : ℕ) : Describes (.ofMantissaAndAccuracy m .exact) m :=
  ⟨by simp [UnpackedFloat.ExtendedMantissa.ofMantissaAndAccuracy],
    by simp [UnpackedFloat.ExtendedMantissa.ofMantissaAndAccuracy]⟩

theorem natCast_bounds {m : ℕ} (hm : 0 < m) (e : ℤ) :
    (2 : ℚ) ^ (m.log2 + e) ≤ m * 2 ^ e ∧ (m : ℚ) * 2 ^ e < 2 ^ (m.log2 + 1 + e) := by
  have hlower : (2 : ℚ) ^ m.log2 ≤ m := by exact_mod_cast Nat.log2_self_le hm.ne'
  have hupper : (m : ℚ) < 2 ^ (m.log2 + 1) := by exact_mod_cast Nat.lt_log2_self
  rw [zpow_add₀ two_ne_zero, zpow_add₀ two_ne_zero, zpow_natCast, ← Nat.cast_add_one, zpow_natCast]
  constructor <;> gcongr

/-- A number that is not too small is brought to 53 bits and rounded to the nearest double. -/
theorem exists_round {m : ℕ} {e : ℤ} (negative : Bool) (hm : 0 < m) (he : -1074 ≤ e)
    (hlower : (2 : ℚ) ^ (-1022 : ℤ) ≤ m * 2 ^ e) (hupper : (m : ℚ) * 2 ^ e ≤ 2 ^ (1023 : ℤ)) :
    ∃ p : Parts, p.Rounds negative (m * 2 ^ e) ∧
      UnpackedFloat.round .binary64 (signOf negative) m e = p.unpacked := by
  have hlog : -1022 < (m.log2 : ℤ) + 1 + e :=
    (zpow_lt_zpow_iff_right₀ one_lt_two).1 (hlower.trans_lt (natCast_bounds hm e).2)
  -- the significand is shifted unless it has 53 bits already
  let k := 52 - m.log2
  have htarget : (e - Format.targetExponent .binary64 (totalExponent m e)).toNat = k := by
    simp only [Format.targetExponent, totalExponent, Format.mantissaBits, Format.minExponent, k]
    omega
  have hvalue : ((m * 2 ^ k : ℕ) : ℚ) * 2 ^ (e - k) = m * 2 ^ e := by
    rw [zpow_sub₀ two_ne_zero, zpow_natCast]
    push_cast
    field_simp
  have hshifted : 2 ^ 52 ≤ m * 2 ^ k := by
    calc 2 ^ 52 ≤ 2 ^ (m.log2 + k) := Nat.pow_le_pow_right two_pos (by omega)
      _ = 2 ^ m.log2 * 2 ^ k := pow_add _ _ _
      _ ≤ m * 2 ^ k := Nat.mul_le_mul_right _ (Nat.log2_self_le hm.ne')
  obtain ⟨p, hrounds, hround⟩ := exists_roundWithAccuracy (e := e - k) negative hshifted (by omega)
    (hvalue ▸ hupper) (describes_exact (m * 2 ^ k))
  rw [hvalue] at hrounds
  refine ⟨p, hrounds, ?_⟩
  rw [UnpackedFloat.round, UnpackedFloat.decreaseExponent, htarget, Nat.shiftLeft_eq]
  exact hround

/-! ### Differences -/

/-- Both significands are brought to the smaller exponent, and their exact difference is rounded. -/
theorem exists_sub_eq_normalize {x y : Float} {p q : Parts} (hx : parts? x = some p)
    (hy : parts? y = some q) (hp : 0 < p.significand) (hq : 0 < q.significand) :
    ∃ (n : ℤ) (e : ℤ), -1074 ≤ e ∧ (n : ℚ) * 2 ^ e = p.value - q.value ∧
      (x - y).toBits.toBitVec = UnpackedFloat.pack .binary64
        (UnpackedFloat.normalize .binary64 n e .positive) := by
  have hpmin := (parts?_spec hx).1.minExponent_le
  have hqmin := (parts?_spec hy).1.minExponent_le
  let e := min p.exponent q.exponent
  have haligned : ∀ r : Parts, e ≤ r.exponent → (((signOf r.negative).apply
      (r.significand <<< (r.exponent - e).toNat : ℕ) : ℤ) : ℚ) * 2 ^ e = r.value := by
    intro r hr
    obtain ⟨k, hk⟩ := Int.eq_ofNat_of_zero_le (sub_nonneg.2 hr)
    have hexponent : r.exponent = k + e := by omega
    rw [Parts.value, Parts.magnitude, hk, Int.toNat_natCast, Nat.shiftLeft_eq, hexponent,
      zpow_add₀ two_ne_zero, zpow_natCast]
    cases r.negative <;> simp [signOf, UnpackedFloat.Sign.apply] <;> ring
  refine ⟨(signOf p.negative).apply (p.significand <<< (p.exponent - e).toNat : ℕ) -
    (signOf q.negative).apply (q.significand <<< (q.exponent - e).toNat : ℕ), e, ?_, ?_, ?_⟩
  · simp only [minExponent] at hpmin hqmin
    omega
  · rw [Int.cast_sub, sub_mul, haligned p (min_le_left _ _), haligned q (min_le_right _ _)]
  · change UnpackedFloat.pack .binary64
      (UnpackedFloat.sub .binary64 x.toModel.unpack y.toModel.unpack) = _
    rw [unpack_eq hx, unpack_eq hy, Parts.unpacked_of_pos hp, Parts.unpacked_of_pos hq]
    rfl

/-- A zero has the value zero, whatever its sign is. -/
theorem hasValue_of_pack_zero {x : Float} {s : UnpackedFloat.Sign}
    (hx : x.toBits.toBitVec = UnpackedFloat.pack .binary64 (.zero s)) : HasValue x 0 := by
  obtain ⟨negative, rfl⟩ : ∃ negative, signOf negative = s := by
    cases s with
    | negative => exact ⟨true, rfl⟩
    | positive => exact ⟨false, rfl⟩
  rw [← Parts.unpacked_zero negative minExponent] at hx
  exact ⟨_, parts?_of_pack (.zero negative) hx, Parts.value_eq_zero rfl⟩

namespace HasValue

variable {x y : Float} {a b : ℚ}

/-- Nothing changes if zero is subtracted, but perhaps the sign of a zero. -/
theorem sub_of_zero (hx : HasValue x a) (hy : HasValue y 0) : HasValue (x - y) a := by
  obtain ⟨p, hp, rfl⟩ := hx
  obtain ⟨q, hq, hvalue⟩ := hy
  have hpack : (x - y).toBits.toBitVec =
      UnpackedFloat.pack .binary64 (UnpackedFloat.sub .binary64 p.unpacked q.unpacked) := by
    rw [← unpack_eq hp, ← unpack_eq hq]
    rfl
  have hqzero : ∃ s, q.unpacked = .zero s := by
    obtain ⟨s, hq, -⟩ | ⟨_, -, hv, hpos⟩ | ⟨_, -, hv, hpos⟩ := q.unpacked_cases
    · exact ⟨s, hq⟩
    · linarith
    · linarith
  obtain ⟨s, hqzero⟩ := hqzero
  rw [hqzero] at hpack
  rcases Nat.eq_zero_or_pos p.significand with hzero | hpos
  · rw [Parts.unpacked, dif_neg (by omega), UnpackedFloat.sub] at hpack
    rw [Parts.value_eq_zero hzero]
    -- the signs decide which zero it is
    split at hpack <;> exact hasValue_of_pack_zero hpack
  · refine hasValue_of_pack (parts?_spec hp).1 (hpack.trans ?_)
    rw [Parts.unpacked_of_pos hpos]
    rfl

/-- The difference of equal doubles is zero. -/
theorem sub_of_eq (hx : HasValue x a) (hy : HasValue y a) (ha : a ≠ 0) : HasValue (x - y) 0 := by
  obtain ⟨p, hp, rfl⟩ := hx
  obtain ⟨q, hq, hvalue⟩ := hy
  obtain ⟨n, e, -, hn, hpack⟩ :=
    exists_sub_eq_normalize hp hq (Parts.significand_pos ha) (Parts.significand_pos (hvalue ▸ ha))
  have hzero : n = 0 := by
    rw [hvalue, sub_self] at hn
    exact_mod_cast (mul_eq_zero.1 hn).resolve_right (by positivity)
  rw [hzero] at hpack
  exact hasValue_of_pack_zero hpack

/-- **Differences are rounded to the nearest double.** -/
theorem exists_sub (hx : HasValue x a) (hy : HasValue y b) (ha : a ≠ 0) (hb : b ≠ 0)
    (hlower : (2 : ℚ) ^ (-1022 : ℤ) ≤ a - b) (hupper : a - b ≤ 2 ^ (1023 : ℤ)) :
    ∃ c, HasValue (x - y) c ∧ IsNearest c (a - b) := by
  obtain ⟨p, hp, rfl⟩ := hx
  obtain ⟨q, hq, rfl⟩ := hy
  obtain ⟨n, e, he, hn, hpack⟩ :=
    exists_sub_eq_normalize hp hq (Parts.significand_pos ha) (Parts.significand_pos hb)
  -- the difference is positive, and so is the integer that is rounded
  have hpos : 0 < n := by
    have hdiff : (0 : ℚ) < n * 2 ^ e := by
      rw [hn]
      exact lt_of_lt_of_le (by positivity) hlower
    exact_mod_cast (mul_pos_iff_of_pos_right (by positivity)).1 hdiff
  obtain ⟨m, rfl⟩ := Int.eq_ofNat_of_zero_le hpos.le
  rw [Int.cast_natCast] at hn
  rw [← hn] at hlower hupper ⊢
  obtain ⟨r, hrounds, hround⟩ := exists_round false (by omega) he hlower hupper
  have hvalue : r.value = r.magnitude := by rw [Parts.value, hrounds.sign, if_neg (by decide)]
  refine ⟨r.value, hasValue_of_pack hrounds.normal ?_, hvalue ▸ hrounds.nearest⟩
  rw [hpack, UnpackedFloat.normalize, Int.compare_eq_gt.2 hpos, ← hround]
  rfl

end HasValue

/-- A double and its floor are multiples of the same power of two. -/
theorem Parts.exists_sub_floor_eq (p : Parts) :
    ∃ n : ℤ, p.value - ⌊p.value⌋ = n * 2 ^ p.exponent := by
  rcases le_or_gt 0 p.exponent with he | he
  · refine ⟨0, ?_⟩
    rw [value_of_exponent_nonneg he, Int.floor_intCast, sub_self, Int.cast_zero, zero_mul]
  · obtain ⟨k, hk⟩ := Int.exists_eq_neg_ofNat he.le
    refine ⟨p.signed p.significand - ⌊p.value⌋ * 2 ^ k, ?_⟩
    have hvalue := p.value_eq_signed
    generalize ⌊p.value⌋ = f at *
    rw [hvalue, hk, zpow_neg, zpow_natCast]
    push_cast
    field_simp

/-- What a floor other than zero leaves over is not too small to be rounded. -/
theorem Parts.IsNormal.le_sub_floor {p : Parts} (hp : p.IsNormal) (hfloor : ⌊p.value⌋ ≠ 0)
    (hne : p.value ≠ ⌊p.value⌋) : (2 : ℚ) ^ (-1022 : ℤ) ≤ p.value - ⌊p.value⌋ := by
  have hpos : 0 < p.value - ⌊p.value⌋ :=
    lt_of_le_of_ne (sub_nonneg.2 (Int.floor_le _)) (sub_ne_zero.2 hne).symm
  rcases lt_or_ge p.exponent (-1022) with hsmall | hlarge
  · -- the double is between minus one half and zero
    have hhalf : |p.value| < 2⁻¹ := by
      rw [abs_value, ← zpow_neg_one]
      exact hp.magnitude_lt_two_pow (by omega)
    obtain ⟨hlower, hupper⟩ := abs_lt.1 hhalf
    have hle : ⌊p.value⌋ ≤ -1 := by
      have hlt : ⌊p.value⌋ < 1 := Int.floor_lt.2 (by push_cast; linarith)
      omega
    have hle : (⌊p.value⌋ : ℚ) ≤ -1 := by exact_mod_cast hle
    have htiny : (2 : ℚ) ^ (-1022 : ℤ) ≤ 2⁻¹ := by
      rw [← zpow_neg_one]
      exact zpow_le_zpow_right₀ one_le_two (by norm_num)
    linarith
  · obtain ⟨n, hn⟩ := p.exists_sub_floor_eq
    have hunit : (0 : ℚ) < 2 ^ p.exponent := by positivity
    rw [hn] at hpos ⊢
    have hone : 1 ≤ n := by exact_mod_cast (mul_pos_iff_of_pos_right hunit).1 hpos
    have hone : (1 : ℚ) ≤ n := by exact_mod_cast hone
    calc (2 : ℚ) ^ (-1022 : ℤ) ≤ 1 * 2 ^ p.exponent := by
          rw [one_mul]
          exact zpow_le_zpow_right₀ one_le_two hlarge
      _ ≤ n * 2 ^ p.exponent := by gcongr

/-- **What a floor leaves over lies between zero and one.** -/
theorem HasValue.exists_sub_floor {x : Float} {a : ℚ} (h : HasValue x a) :
    ∃ b, HasValue (x - Binary64.floor x) b ∧ 0 ≤ b ∧ b ≤ 1 := by
  have hfloor := h.floor
  have hle := Int.floor_le a
  have hlt := Int.lt_floor_add_one a
  by_cases hzero : ⌊a⌋ = 0
  · -- nothing is rounded, however small the double is
    rw [hzero, Int.cast_zero] at hfloor hle hlt
    exact ⟨a, h.sub_of_zero hfloor, hle, by linarith⟩
  have hzero' : (⌊a⌋ : ℚ) ≠ 0 := Int.cast_ne_zero.2 hzero
  by_cases heq : a = ⌊a⌋
  · exact ⟨0, h.sub_of_eq (heq ▸ hfloor) (heq ▸ hzero'), le_rfl, zero_le_one⟩
  · have ha : a ≠ 0 := by
      rintro rfl
      exact hzero Int.floor_zero
    have hsmall : (2 : ℚ) ^ (-1022 : ℤ) ≤ a - ⌊a⌋ := by
      obtain ⟨p, hp, rfl⟩ := h
      exact (parts?_spec hp).1.le_sub_floor hzero heq
    have hone : a - ⌊a⌋ ≤ 1 := by linarith
    have hlarge : (1 : ℚ) ≤ 2 ^ (1023 : ℤ) := one_le_zpow₀ one_le_two (by norm_num)
    obtain ⟨b, hb, hnearest⟩ := h.exists_sub hfloor ha hzero' hsmall (hone.trans hlarge)
    exact ⟨b, hb, hnearest.nonneg (by linarith), hnearest.ge_of_ge isShort_one hone⟩

/-! ### Reciprocals -/

theorem parts?_one : parts? 1 = some ⟨false, 2 ^ 52, -52⟩ := by decide +kernel

/-- A significand of 53 bits whose exponent is too large stands for infinity. -/
theorem hasValue_or_infinity {x : Float} {p : Parts} (hfull : p.IsFull) (hsign : p.negative = false)
    (hmin : minExponent ≤ p.exponent)
    (hx : x.toBits.toBitVec = UnpackedFloat.pack .binary64 p.unpacked) :
    HasValue x p.magnitude ∨ x.toModel.unpack = .infinity .positive := by
  rcases le_or_gt p.exponent 971 with hle | hgt
  · have hvalue : p.value = p.magnitude := by rw [Parts.value, hsign, if_neg (by decide)]
    exact .inl (hvalue ▸ hasValue_of_pack ⟨hmin, hle, hfull.2, .inl hfull.1⟩ hx)
  · have hlarge :
        2 ^ 11 ≤ (p.exponent + (Format.binary64.exponentBias : ℕ) + (52 : ℕ)).toNat + 1 := by
      simp only [Format.exponentBias]
      omega
    have hpack : UnpackedFloat.pack .binary64 p.unpacked =
        UnpackedFloat.packedInfinity .binary64 .positive := by
      rw [Parts.unpacked_of_pos hfull.pos, hsign]
      simp only [UnpackedFloat.pack]
      rw [if_pos hlarge]
      rfl
    refine .inr ?_
    change UnpackedFloat.unpack .binary64 x.toBits.toBitVec = _
    rw [hx, hpack]
    rfl

/-- One is shifted such that its quotient has at least 53 bits. -/
theorem divCore_one {m : ℕ} {e : ℤ} (h : m.log2 + e ≤ 0) :
    UnpackedFloat.divCore .binary64 (2 ^ 52) (-52) m e =
      (2 ^ (m.log2 + 53) / m, -m.log2 - e - 53,
        UnpackedFloat.accuracyOfFraction (2 ^ (m.log2 + 53) % m) m) := by
  have htarget : min (-52 - e) (Format.targetExponent .binary64
      (totalExponent (2 ^ 52) (-52) - totalExponent m e)) = -m.log2 - e - 53 := by
    simp only [Format.targetExponent, totalExponent, Format.mantissaBits, Format.minExponent,
      Nat.log2_two_pow]
    omega
  have hshift : (-52 - e - (-m.log2 - e - 53)).toNat = m.log2 + 1 := by omega
  rw [UnpackedFloat.divCore, htarget, hshift, Nat.shiftLeft_eq, ← pow_add,
    show 52 + (m.log2 + 1) = m.log2 + 53 by ring]

/-- **One divided by a number between zero and one is one or more**, or infinite. -/
theorem HasValue.one_div {y : Float} {b : ℚ} (h : HasValue y b) (hpos : 0 < b) (hle : b ≤ 1) :
    (∃ v, HasValue (1 / y) v ∧ 1 ≤ v) ∨ (1 / y).toModel.unpack = .infinity .positive := by
  obtain ⟨q, hq, rfl⟩ := h
  have hq₀ := Parts.significand_pos hpos.ne'
  have hsign := Parts.negative_of_value_pos hpos
  rw [Parts.value_of_nonneg hpos.le] at hle
  have hlog : (q.significand.log2 : ℤ) + q.exponent ≤ 0 := by
    have hone := (natCast_bounds hq₀ q.exponent).1.trans hle
    rw [← zpow_zero (2 : ℚ)] at hone
    exact (zpow_le_zpow_iff_right₀ one_lt_two).1 hone
  have hquotient : 2 ^ 52 ≤ 2 ^ (q.significand.log2 + 53) / q.significand := by
    rw [Nat.le_div_iff_mul_le hq₀]
    calc 2 ^ 52 * q.significand ≤ 2 ^ 52 * 2 ^ (q.significand.log2 + 1) :=
          Nat.mul_le_mul_left _ Nat.lt_log2_self.le
      _ = 2 ^ (q.significand.log2 + 53) := by rw [← pow_add]; ring_nf
  have hreciprocal : ((2 ^ (q.significand.log2 + 53) : ℕ) : ℚ) / q.significand *
      2 ^ (-(q.significand.log2 : ℤ) - q.exponent - 53) = 1 / q.magnitude := by
    rw [zpow_sub₀ two_ne_zero, zpow_sub₀ two_ne_zero, zpow_neg, zpow_natCast, Parts.magnitude,
      Nat.cast_pow, Nat.cast_ofNat, pow_add]
    field_simp
  -- the exponent of the quotient is too large for a double if the divisor is tiny
  obtain ⟨p, hfull, hsign', hmin, hnearest, hround⟩ :=
    exists_rounded (e := -q.significand.log2 - q.exponent - 53) false hquotient (by omega)
      (describes_quotient _ hq₀)
  have hone : 1 ≤ p.magnitude := by
    rw [hreciprocal] at hnearest
    exact hnearest.le_of_le isShort_one ((one_le_div (Parts.magnitude_pos hq₀)).2 hle)
  have hpack : (1 / y).toBits.toBitVec = UnpackedFloat.pack .binary64 p.unpacked := by
    change UnpackedFloat.pack .binary64
      (UnpackedFloat.div .binary64 (1 : Float).toModel.unpack y.toModel.unpack) = _
    rw [unpack_eq parts?_one, unpack_eq hq, Parts.unpacked_of_pos (by norm_num),
      Parts.unpacked_of_pos hq₀, UnpackedFloat.div, divCore_one hlog, hsign]
    exact congrArg _ hround
  exact (hasValue_or_infinity hfull hsign' hmin hpack).imp_left fun hvalue => ⟨_, hvalue, hone⟩

end Abacus.Binary64
