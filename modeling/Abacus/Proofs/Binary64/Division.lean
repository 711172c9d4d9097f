import Abacus.Proofs.Binary64.Packing

/-!
# The quotient of two integers

Integers of 64 bits become the nearest doubles, and so does the quotient of two such doubles
(`exists_parts?_div`). Its magnitude is at most `2 ^ 62` if the divisor is two or more, so that what
is nearest to it fits into 64 bits on both sides of zero (`exists_roundedHalfAway_div`).

Division yields a quotient of naturals together with one bit for the half that is left over and one
for what is left over beyond it (`Describes`). Shifts keep the meaning of these bits, and they are
all that rounding has to know (`Describes.abs_roundedMantissa_sub_le`). The quotient is rounded in
two steps: the first brings it to 53 bits and rounds it to the nearest natural, which may carry into
another bit, and the second makes up for that (`exists_rounded`). Below `2 ^ 1023` what comes out is
a double (`exists_roundWithAccuracy`).
-/

namespace Abacus.Binary64

open Float.Model (Format UnpackedFloat totalExponent)
open Float.Model.UnpackedFloat (Sign Accuracy ExtendedMantissa)

/-! ### What is left over -/

/-- A number as a natural, a bit for the half of a unit and a bit for anything beyond it. The ends
belong to both sides, because an error of one half is the same whichever way a tie is rounded. -/
structure Describes (m : ExtendedMantissa) (x : ℚ) : Prop where
  le : (m.mantissa : ℚ) + m.roundBit.toNat / 2 ≤ x
  ge : x ≤ (m.mantissa : ℚ) + m.roundBit.toNat / 2 + m.stickyBit.toNat / 2

theorem Describes.bounds {m : ExtendedMantissa} {x : ℚ} (h : Describes m x) :
    (m.mantissa : ℚ) ≤ x ∧ x ≤ m.mantissa + 1 := by
  obtain ⟨mantissa, roundBit, stickyBit⟩ := m
  obtain ⟨hle, hge⟩ := h
  cases roundBit <;> cases stickyBit <;> norm_num at hle hge ⊢ <;> constructor <;> linarith

theorem Describes.shiftRightOne {m : ExtendedMantissa} {x : ℚ} (h : Describes m x) :
    Describes m.shiftRightOne (x / 2) := by
  obtain ⟨mantissa, roundBit, stickyBit⟩ := m
  -- the lowest bit becomes that of the half
  have hbit : ((mantissa / 2 : ℕ) : ℚ) + (mantissa % 2 != 0).toNat / 2 = mantissa / 2 := by
    have hdiv : ((2 * (mantissa / 2) + mantissa % 2 : ℕ) : ℚ) = mantissa := by
      rw [Nat.div_add_mod]
    have hmod : (mantissa % 2 != 0).toNat = mantissa % 2 := by
      rcases Nat.mod_two_eq_zero_or_one mantissa with hm | hm <;> rw [hm] <;> rfl
    rw [hmod]
    push_cast at hdiv
    linarith
  obtain ⟨hle, hge⟩ := h
  constructor
  · change ((mantissa / 2 : ℕ) : ℚ) + (mantissa % 2 != 0).toNat / 2 ≤ x / 2
    rw [hbit]
    have hround : (0 : ℚ) ≤ roundBit.toNat := Nat.cast_nonneg _
    linarith
  · change x / 2 ≤ ((mantissa / 2 : ℕ) : ℚ) + (mantissa % 2 != 0).toNat / 2 +
      (roundBit || stickyBit).toNat / 2
    rw [hbit]
    -- the two bits that were there are now beyond the half
    cases roundBit <;> cases stickyBit <;> norm_num at hge ⊢ <;> linarith

theorem Describes.shiftRight {m : ExtendedMantissa} {x : ℚ} (h : Describes m x) (k : ℕ) :
    Describes (m >>> k) (x / 2 ^ k) := by
  change Describes (k.repeat ExtendedMantissa.shiftRightOne m) _
  induction k with
  | zero => simpa [Nat.repeat] using h
  | succ k ih =>
    rw [Nat.repeat, pow_succ, ← div_div]
    exact ih.shiftRightOne

/-- **The bits are enough to round.** -/
theorem Describes.abs_roundedMantissa_sub_le {m : ExtendedMantissa} {x : ℚ} (h : Describes m x) :
    |(m.roundedMantissa : ℚ) - x| ≤ 1 / 2 := by
  obtain ⟨mantissa, roundBit, stickyBit⟩ := m
  obtain ⟨hle, hge⟩ := h
  have hparity : ((mantissa % 2 : ℕ) : ℚ) = 0 ∨ ((mantissa % 2 : ℕ) : ℚ) = 1 := by
    exact_mod_cast Nat.mod_two_eq_zero_or_one mantissa
  rw [abs_le]
  cases roundBit <;> cases stickyBit <;>
    simp only [ExtendedMantissa.roundedMantissa, ExtendedMantissa.accuracy,
      Accuracy.roundToNearestEven, Nat.cast_add, Nat.cast_one, Bool.toNat_true, Bool.toNat_false,
      Nat.cast_zero] at hle hge ⊢
  · constructor <;> linarith
  · constructor <;> linarith
  · -- the number is the half itself
    rcases hparity with hparity | hparity <;> rw [hparity] <;> constructor <;> linarith
  · constructor <;> linarith

/-- The quotient of two naturals is its whole part and what the remainder says. -/
theorem describes_quotient (n : ℕ) {d : ℕ} (hd : 0 < d) :
    Describes (.ofMantissaAndAccuracy (n / d) (UnpackedFloat.accuracyOfFraction (n % d) d))
      (n / d) := by
  have hd' : (0 : ℚ) < d := by exact_mod_cast hd
  have hquotient : (n : ℚ) / d = (n / d : ℕ) + ((n % d : ℕ) : ℚ) / d := by
    have hdiv : ((d * (n / d) + n % d : ℕ) : ℚ) = n := by rw [Nat.div_add_mod]
    push_cast at hdiv
    field_simp
    linarith
  have hlt : ((n % d : ℕ) : ℚ) / d ≤ 1 := by
    rw [div_le_one hd']
    exact_mod_cast (Nat.mod_lt n hd).le
  have hnonneg : (0 : ℚ) ≤ ((n % d : ℕ) : ℚ) / d := by positivity
  rw [hquotient]
  unfold UnpackedFloat.accuracyOfFraction
  split
  · next hzero =>
    rw [hzero]
    constructor <;> simp [ExtendedMantissa.ofMantissaAndAccuracy]
  · -- twice the remainder is compared with the divisor
    cases h : compare (2 * (n % d)) d with
    | lt =>
      have hhalf : ((n % d : ℕ) : ℚ) / d ≤ 1 / 2 := by
        rw [div_le_div_iff₀ hd' two_pos]
        have hlt := Nat.compare_eq_lt.1 h
        exact_mod_cast (by omega : n % d * 2 ≤ 1 * d)
      constructor <;> simp [ExtendedMantissa.ofMantissaAndAccuracy] <;> linarith
    | eq =>
      have hhalf : ((n % d : ℕ) : ℚ) / d = 1 / 2 := by
        rw [div_eq_div_iff hd'.ne' two_ne_zero]
        have heq := Nat.compare_eq_eq.1 h
        exact_mod_cast (by omega : n % d * 2 = 1 * d)
      constructor <;> simp [ExtendedMantissa.ofMantissaAndAccuracy] <;> linarith
    | gt =>
      have hhalf : (1 : ℚ) / 2 ≤ ((n % d : ℕ) : ℚ) / d := by
        rw [div_le_div_iff₀ two_pos hd']
        have hgt := Nat.compare_eq_gt.1 h
        exact_mod_cast (by omega : 1 * d ≤ n % d * 2)
      constructor <;> simp [ExtendedMantissa.ofMantissaAndAccuracy] <;> linarith

/-! ### Rounding to 53 bits -/

theorem shiftToTargetExponent_eq {m k : ℕ} {e : ℤ} (accuracy : Accuracy) (hm : m.log2 = 52 + k)
    (he : -1074 ≤ e) : UnpackedFloat.shiftToTargetExponent .binary64 m e accuracy =
      (ExtendedMantissa.ofMantissaAndAccuracy m accuracy >>> k, e + k) := by
  have htarget : Format.targetExponent .binary64 (totalExponent m e) = e + k := by
    simp only [Format.targetExponent, totalExponent, hm, Format.mantissaBits, Format.minExponent]
    omega
  rw [UnpackedFloat.shiftToTargetExponent, htarget, UnpackedFloat.shiftToExponent,
    add_sub_cancel_left, Int.toNat_natCast]

/-- The second step makes up for a carry. -/
theorem shiftToTargetExponent_exact {m : ℕ} {e : ℤ} (negative : Bool) (he : -1074 ≤ e)
    (hm : 2 ^ 52 ≤ m ∧ m ≤ 2 ^ 53) :
    let shifted := UnpackedFloat.shiftToTargetExponent .binary64 m e .exact
    shifted.1.mantissa = (Parts.carry negative m e).significand ∧
      shifted.2 = (Parts.carry negative m e).exponent := by
  obtain ⟨hlower, hupper⟩ := hm
  rcases hupper.lt_or_eq with hlt | rfl
  · have hlog : m.log2 = 52 + 0 := (Nat.log2_eq_iff (by omega)).2 ⟨hlower, hlt⟩
    rw [shiftToTargetExponent_eq .exact hlog he, Parts.carry_of_lt negative e hlt]
    exact ⟨rfl, add_zero e⟩
  · have hlog : (2 ^ 53).log2 = 52 + 1 := Nat.log2_two_pow
    rw [shiftToTargetExponent_eq .exact hlog he, Parts.carry_two_pow]
    exact ⟨by rfl, rfl⟩

theorem roundWithAccuracy_eq {m k : ℕ} {e : ℤ} {accuracy : Accuracy} (negative : Bool)
    (hm : m.log2 = 52 + k) (he : -1074 ≤ e) :
    let r := (ExtendedMantissa.ofMantissaAndAccuracy m accuracy >>> k).roundedMantissa
    2 ^ 52 ≤ r ∧ r ≤ 2 ^ 53 →
      UnpackedFloat.roundWithAccuracy .binary64 (signOf negative) m e accuracy =
        (Parts.carry negative r (e + k)).unpacked := by
  intro r hr
  let p := Parts.carry negative r (e + k)
  obtain ⟨hfull, hsign, -⟩ := Parts.carry_spec negative (e + k) hr
  -- nothing is left over behind the first step, so the second is exact
  let second := UnpackedFloat.shiftToTargetExponent .binary64 r (e + k) .exact
  have hdef : UnpackedFloat.roundWithAccuracy .binary64 (signOf negative) m e accuracy =
      if h : second.1.mantissa = 0 then .zero (signOf negative)
      else .finite (signOf negative) second.1.mantissa second.2 (Nat.pos_of_ne_zero h) := by
    rw [UnpackedFloat.roundWithAccuracy, shiftToTargetExponent_eq accuracy hm he]
  obtain ⟨hsignificand, hexponent⟩ : second.1.mantissa = p.significand ∧ second.2 = p.exponent :=
    shiftToTargetExponent_exact negative (show -1074 ≤ e + k by omega) hr
  have hne : second.1.mantissa ≠ 0 := hsignificand ▸ hfull.pos.ne'
  rw [hdef, dif_neg hne, Parts.unpacked_of_pos hfull.pos, UnpackedFloat.finite.injEq]
  exact ⟨congrArg signOf hsign.symm, hsignificand, hexponent⟩

/-- The length of a natural says how far a number is shifted that is up to one larger. -/
theorem shifted_bounds {m k : ℕ} {t : ℚ} (hm : m.log2 = 52 + k) (hlower : (m : ℚ) ≤ t)
    (hupper : t ≤ m + 1) : 2 ^ 52 ≤ t / 2 ^ k ∧ t / 2 ^ k ≤ 2 ^ 53 := by
  have hne : m ≠ 0 := by
    rintro rfl
    rw [Nat.log2_zero] at hm
    omega
  have hpow : (0 : ℚ) < 2 ^ k := by positivity
  constructor
  · rw [le_div_iff₀ hpow, ← pow_add, ← hm]
    refine le_trans ?_ hlower
    exact_mod_cast Nat.log2_self_le hne
  · rw [div_le_iff₀ hpow, ← pow_add, show 53 + k = m.log2 + 1 by omega]
    refine hupper.trans ?_
    exact_mod_cast Nat.succ_le_of_lt (Nat.lt_log2_self (n := m))

/-- **What has at least 53 bits is rounded to the nearest number of 53 bits**, with an exponent that
may be too large for a double. -/
theorem exists_rounded {m : ℕ} {e : ℤ} {t : ℚ} {accuracy : Accuracy} (negative : Bool)
    (hm : 2 ^ 52 ≤ m) (he : -1074 ≤ e) (h : Describes (.ofMantissaAndAccuracy m accuracy) t) :
    ∃ p : Parts, p.IsFull ∧ p.negative = negative ∧ minExponent ≤ p.exponent ∧
      IsNearest p.magnitude (t * 2 ^ e) ∧
      UnpackedFloat.roundWithAccuracy .binary64 (signOf negative) m e accuracy = p.unpacked := by
  obtain ⟨k, hk⟩ := Nat.exists_eq_add_of_le ((Nat.le_log2 (by omega)).2 hm : 52 ≤ m.log2)
  have hmantissa : (ExtendedMantissa.ofMantissaAndAccuracy m accuracy).mantissa = m := by
    rcases accuracy with _ | _ | _ | _ <;> rfl
  have hbounds := h.bounds
  rw [hmantissa] at hbounds
  -- the first step leaves 53 bits in front of the point
  obtain ⟨hlower, hupper⟩ := shifted_bounds hk hbounds.1 hbounds.2
  let r := (ExtendedMantissa.ofMantissaAndAccuracy m accuracy >>> k).roundedMantissa
  have hr : |(r : ℚ) - t / 2 ^ k| ≤ 1 / 2 := (h.shiftRight k).abs_roundedMantissa_sub_le
  have hbounds := significand_bounds hr hlower hupper
  obtain ⟨hfull, hsign, hexponent⟩ := Parts.carry_spec negative (e + k) hbounds
  have hvalue : t / 2 ^ k * 2 ^ (e + k) = t * 2 ^ e := by
    rw [zpow_add₀ two_ne_zero, zpow_natCast]
    field_simp
  have hnearest : IsNearest (Parts.carry negative r (e + k)).magnitude (t * 2 ^ e) := by
    rw [Parts.magnitude_carry negative (e + k) hbounds.2, ← hvalue]
    exact isNearest_of_abs_sub_le hlower hr (e + k)
  have hmin : minExponent ≤ e + k := by
    simp only [minExponent]
    omega
  exact ⟨_, hfull, hsign, hmin.trans hexponent, hnearest,
    roundWithAccuracy_eq negative hk he hbounds⟩

/-- Below `2 ^ 1023` it is rounded to a double. -/
theorem exists_roundWithAccuracy {m : ℕ} {e : ℤ} {t : ℚ} {accuracy : Accuracy} (negative : Bool)
    (hm : 2 ^ 52 ≤ m) (he : -1074 ≤ e) (hmax : t * 2 ^ e ≤ 2 ^ (1023 : ℤ))
    (h : Describes (.ofMantissaAndAccuracy m accuracy) t) :
    ∃ p : Parts, p.Rounds negative (t * 2 ^ e) ∧
      UnpackedFloat.roundWithAccuracy .binary64 (signOf negative) m e accuracy = p.unpacked := by
  obtain ⟨p, hfull, hsign, hexponent, hnearest, hround⟩ := exists_rounded negative hm he h
  have hmagnitude : p.magnitude ≤ 2 ^ (1023 : ℤ) := hnearest.ge_of_ge (isShort_two_pow 1023) hmax
  have hle := (zpow_le_zpow_iff_right₀ one_lt_two).1 (hfull.magnitude_bounds.1.trans hmagnitude)
  exact ⟨p, ⟨⟨hexponent, by omega, hfull.2, .inl hfull.1⟩, hfull, hsign, hnearest⟩, hround⟩

/-! ### Dividing -/

/-- The dividend is shifted by 53 bits, which leaves at least 53 bits of the quotient. -/
theorem divCore_eq {p q : Parts} (hp : p.IsFull) (hq : q.IsFull)
    (hlower : -1021 ≤ p.exponent - q.exponent) :
    UnpackedFloat.divCore .binary64 p.significand p.exponent q.significand q.exponent =
      (p.significand * 2 ^ 53 / q.significand, p.exponent - q.exponent - 53,
        UnpackedFloat.accuracyOfFraction (p.significand * 2 ^ 53 % q.significand)
          q.significand) := by
  have htarget : min (p.exponent - q.exponent) (Format.targetExponent .binary64
      (totalExponent p.significand p.exponent - totalExponent q.significand q.exponent)) =
        p.exponent - q.exponent - 53 := by
    simp only [Format.targetExponent, totalExponent, Format.mantissaBits, Format.minExponent,
      hp.log2, hq.log2]
    omega
  have hshift : (p.exponent - q.exponent - (p.exponent - q.exponent - 53)).toNat = 53 := by omega
  rw [UnpackedFloat.divCore, htarget, hshift, Nat.shiftLeft_eq]

theorem le_quotient {p q : Parts} (hp : p.IsFull) (hq : q.IsFull) :
    2 ^ 52 ≤ p.significand * 2 ^ 53 / q.significand := by
  rw [Nat.le_div_iff_mul_le hq.pos]
  exact Nat.mul_le_mul hp.1 hq.2.le

theorem Parts.IsFull.div_le {p q : Parts} (hp : p.IsFull) (hq : q.IsFull) {k : ℤ}
    (h : p.exponent - q.exponent < k) : p.magnitude / q.magnitude ≤ 2 ^ k := by
  obtain ⟨-, hupper⟩ := hp.magnitude_bounds
  obtain ⟨hlower, -⟩ := hq.magnitude_bounds
  have hpos : (0 : ℚ) < 2 ^ (52 + q.exponent) := by positivity
  rw [div_le_iff₀ (hpos.trans_le hlower)]
  calc p.magnitude ≤ 2 ^ (53 + p.exponent) := hupper.le
    _ ≤ 2 ^ (k + (52 + q.exponent)) := zpow_le_zpow_right₀ one_le_two (by omega)
    _ = 2 ^ k * 2 ^ (52 + q.exponent) := zpow_add₀ two_ne_zero _ _
    _ ≤ 2 ^ k * q.magnitude := by gcongr

theorem signOf_div (a b : Bool) : signOf a / signOf b = signOf (a != b) := by
  cases a <;> cases b <;> rfl

/-- **The quotient of two doubles of 53 bits is rounded to the nearest double.** -/
theorem exists_parts?_div {x y : Float} {p q : Parts} (hx : parts? x = some p)
    (hy : parts? y = some q) (hp : p.IsFull) (hq : q.IsFull)
    (hlower : -1021 ≤ p.exponent - q.exponent) (hupper : p.exponent - q.exponent ≤ 1021) :
    ∃ r, parts? (x / y) = some r ∧
      r.Rounds (p.negative != q.negative) (p.magnitude / q.magnitude) := by
  have hvalue : ((p.significand * 2 ^ 53 : ℕ) : ℚ) / q.significand *
      2 ^ (p.exponent - q.exponent - 53) = p.magnitude / q.magnitude := by
    rw [zpow_sub₀ two_ne_zero, zpow_sub₀ two_ne_zero, Parts.magnitude, Parts.magnitude,
      Nat.cast_mul, Nat.cast_pow, Nat.cast_ofNat]
    have hq' : (q.significand : ℚ) ≠ 0 := Nat.cast_ne_zero.2 hq.pos.ne'
    field_simp
  have hmax : p.magnitude / q.magnitude ≤ 2 ^ (1023 : ℤ) := hp.div_le hq (by omega)
  obtain ⟨r, hrounds, hround⟩ := exists_roundWithAccuracy (e := p.exponent - q.exponent - 53)
    (p.negative != q.negative) (le_quotient hp hq) (by omega) (hvalue ▸ hmax)
    (describes_quotient (p.significand * 2 ^ 53) hq.pos)
  rw [hvalue] at hrounds
  refine ⟨r, parts?_of_pack hrounds.normal ?_, hrounds⟩
  change UnpackedFloat.pack .binary64
    (UnpackedFloat.div .binary64 x.toModel.unpack y.toModel.unpack) = _
  rw [unpack_eq hx, unpack_eq hy, Parts.unpacked_of_pos hp.pos, Parts.unpacked_of_pos hq.pos,
    UnpackedFloat.div, divCore_eq hp hq hlower]
  dsimp only
  rw [signOf_div, hround]

/-! ### Integers as doubles -/

/-- A natural below `2 ^ 63` as a double. -/
theorem exists_parts?_natural {n : ℕ} (hn : 0 < n) (hmax : n < 2 ^ 63) (negative : Bool) :
    ∃ p, parts? (nearest negative n 1) = some p ∧ p.Rounds negative n ∧ -52 ≤ p.exponent ∧
      p.exponent ≤ 11 := by
  have hone : (1 : ℚ) ≤ n := by exact_mod_cast hn
  have hn' : (n : ℚ) ≤ 2 ^ 63 := by exact_mod_cast hmax.le
  obtain ⟨p, hp, hrounds⟩ := exists_parts?_nearest (d := 1) hn Nat.one_pos
    (by
      rw [Nat.cast_one, div_one]
      exact (zpow_le_one_of_nonpos₀ one_le_two (by decide)).trans hone)
    (by
      rw [Nat.cast_one, div_one]
      refine hn'.trans_lt ?_
      rw [← zpow_natCast]
      exact zpow_lt_zpow_right₀ one_lt_two (by decide)) negative
  rw [Nat.cast_one, div_one] at hrounds
  obtain ⟨hlow, hhigh⟩ := hrounds.full.magnitude_bounds
  have hmagnitude : 1 ≤ p.magnitude :=
    hrounds.nearest.le_of_le isShort_one hone
  have hmagnitude' : p.magnitude ≤ 2 ^ 63 := hrounds.nearest.ge_of_ge (isShort_two_pow 63) hn'
  refine ⟨p, hp, hrounds, ?_, ?_⟩
  · have hlt : (2 : ℚ) ^ (0 : ℤ) < 2 ^ (53 + p.exponent) := by
      rw [zpow_zero]
      exact hmagnitude.trans_lt hhigh
    have := (zpow_lt_zpow_iff_right₀ one_lt_two).1 hlt
    omega
  · have hle : (2 : ℚ) ^ (52 + p.exponent) ≤ 2 ^ (63 : ℤ) := hlow.trans hmagnitude'
    have := (zpow_le_zpow_iff_right₀ one_lt_two).1 hle
    omega

/-- What the quotient of two naturals becomes if both of them are rounded, and the quotient of what
they are rounded to. -/
def IsRoundedQuotient (f : ℚ) (n d : ℕ) : Prop :=
  ∃ a b : ℚ, IsNearest a n ∧ IsNearest b d ∧ IsNearest f (a / b)

/-- Rounding is monotone, so that half of the largest power of two bounds the quotient. -/
theorem IsRoundedQuotient.bounds {f : ℚ} {n d : ℕ} (h : IsRoundedQuotient f n d)
    (hn : n < 2 ^ 63) (hd : 2 ≤ d) : 0 ≤ f ∧ f ≤ 2 ^ 62 := by
  obtain ⟨a, b, ha, hb, hf⟩ := h
  have ha₀ : 0 ≤ a := ha.nonneg (Nat.cast_nonneg n)
  have ha' : a ≤ 2 ^ 63 := ha.ge_of_ge (isShort_two_pow 63) (by exact_mod_cast hn.le)
  have hb' : 2 ≤ b := hb.le_of_le
    (by exact_mod_cast isShort_natCast (m := 2) (by norm_num)) (by exact_mod_cast hd)
  have hdiv : a / b ≤ 2 ^ 62 := by
    rw [div_le_iff₀ (by linarith)]
    linarith
  exact ⟨hf.nonneg (by positivity), hf.ge_of_ge (isShort_two_pow 62) hdiv⟩

theorem IsRoundedQuotient.floor_le {f : ℚ} {n d : ℕ} (h : IsRoundedQuotient f n d)
    (hn : n < 2 ^ 63) (hd : 2 ≤ d) : ⌊f + 1 / 2⌋₊ ≤ 2 ^ 62 := by
  have hbound := (h.bounds hn hd).2
  refine Nat.lt_succ_iff.1 ((Nat.floor_lt' (by norm_num)).2 ?_)
  push_cast
  linarith

/-! ### The nearest integer -/

/-- The natural nearest to a double, halves upwards. -/
theorem roundedMagnitude_eq (p : Parts) : p.roundedMagnitude = ⌊p.magnitude + 1 / 2⌋₊ := by
  unfold Parts.roundedMagnitude Parts.magnitude
  split
  · next he =>
    obtain ⟨k, hk⟩ := Int.eq_ofNat_of_zero_le he
    rw [hk, Int.toNat_natCast, zpow_natCast, Nat.shiftLeft_eq, eq_comm, Nat.floor_eq_iff
      (by positivity)]
    push_cast
    constructor <;> linarith
  · next he =>
    obtain ⟨k, hk⟩ : ∃ k : ℕ, p.exponent = -((k + 1 : ℕ) : ℤ) :=
      ⟨(-p.exponent - 1).toNat, by omega⟩
    have hsum : (p.significand : ℚ) * 2 ^ p.exponent + 1 / 2 =
        ((p.significand + 2 ^ k : ℕ) : ℚ) / (2 ^ (k + 1) : ℕ) := by
      rw [hk, zpow_neg, zpow_natCast, pow_succ]
      push_cast
      field_simp
      ring
    rw [hsum, Nat.floor_div_eq_div, hk, neg_neg, Int.toNat_natCast, Nat.add_sub_cancel,
      Nat.shiftRight_eq_div_pow, Nat.shiftLeft_eq, Nat.one_mul]

/-- **The quotient of two integers is rounded three times** before the nearest integer is taken. -/
theorem exists_roundedHalfAway_div {n : ℤ} {d : ℕ} (hn : n ≠ 0) (hn' : n.natAbs < 2 ^ 63)
    (hd : 2 ≤ d) (hd' : d < 2 ^ 63) :
    ∃ f, IsRoundedQuotient f n.natAbs d ∧
      roundedHalfAway (ofInt n / ofInt d) = n.sign * ⌊f + 1 / 2⌋₊ := by
  obtain ⟨p, hp, hrounds, hpmin, hpmax⟩ := exists_parts?_natural (Int.natAbs_pos.2 hn) hn' (n < 0)
  obtain ⟨q, hq, hrounds', hqmin, hqmax⟩ :=
    exists_parts?_natural (show 0 < d by omega) hd' ((d : ℤ) < 0)
  obtain ⟨r, hr, hdiv⟩ :=
    exists_parts?_div hp hq hrounds.full hrounds'.full (by omega) (by omega)
  have hquotient : IsRoundedQuotient r.magnitude n.natAbs d :=
    ⟨_, _, hrounds.nearest, hrounds'.nearest, hdiv.nearest⟩
  refine ⟨_, hquotient, ?_⟩
  have hvalue : roundedHalfAway (ofInt n / ofInt d) = clamp (r.signed r.roundedMagnitude) := by
    have hparts : parts? (ofInt n / ofInt d) = some r := hr
    simp only [roundedHalfAway, saturate, hparts]
  -- nothing is clamped
  have hle := hquotient.floor_le hn' hd
  have hsigned : r.signed r.roundedMagnitude = n.sign * ⌊r.magnitude + 1 / 2⌋₊ := by
    have hnonneg : decide ((d : ℤ) < 0) = false := decide_eq_false (by omega)
    rw [roundedMagnitude_eq, Parts.signed, hdiv.sign, hrounds.sign, hrounds'.sign, hnonneg,
      Bool.bne_false]
    rcases lt_or_gt_of_ne hn with hneg | hpos
    · rw [Int.sign_eq_neg_one_of_neg hneg, if_pos (by simpa using hneg), neg_one_mul]
    · rw [Int.sign_eq_one_of_pos hpos, if_neg (by simpa using hpos.le), one_mul]
  rw [hvalue, ← hsigned]
  simp only [clamp, minInt, maxInt, Parts.signed, roundedMagnitude_eq]
  split <;> omega

/-- **What is nearest to the quotient of two integers can be negated.** -/
theorem minInt_lt_roundedHalfAway_div {n : ℤ} {d : ℕ} (hn : n ≠ 0) (hn' : n.natAbs < 2 ^ 63)
    (hd : 2 ≤ d) (hd' : d < 2 ^ 63) : minInt < roundedHalfAway (ofInt n / ofInt d) := by
  obtain ⟨f, hf, hvalue⟩ := exists_roundedHalfAway_div hn hn' hd hd'
  have hle := hf.floor_le hn' hd
  rw [hvalue, minInt]
  rcases lt_or_gt_of_ne hn with hneg | hpos
  · rw [Int.sign_eq_neg_one_of_neg hneg]
    omega
  · rw [Int.sign_eq_one_of_pos hpos]
    omega

end Abacus.Binary64
