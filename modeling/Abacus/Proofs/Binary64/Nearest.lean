import Abacus.Proofs.Binary64.Bits

/-!
# How near doubles are

Rounding a positive number yields a number of at most 53 significant bits such that no other one is
nearer (`IsNearest`). Whatever the tie-breaking rule is, this is enough to compare the result with
other numbers of at most 53 bits: rounding does not step over them (`IsNearest.le_of_le` and
`IsNearest.ge_of_ge`), and they are rounded to themselves (`IsNearest.eq_of_isShort`).

A number is scaled such that it has 53 bits in front of the point. The natural within one half of it
is nearest to it among all numbers of 53 bits, as those below are sparser than the naturals only
where they are not larger than `2 ^ 52` (`isNearest_of_abs_sub_le`). The natural may be `2 ^ 53`,
which a double holds with the next exponent (`Parts.carry`).
-/

namespace Abacus.Binary64

/-! ### Numbers of 53 bits -/

/-- A number of at most 53 significant bits, with any exponent. -/
def IsShort (z : ℚ) : Prop := ∃ (m : ℕ) (e : ℤ), m ≤ 2 ^ 53 ∧ z = m * 2 ^ e

theorem isShort_natCast {m : ℕ} (h : m ≤ 2 ^ 53) : IsShort m := ⟨m, 0, h, by simp⟩

theorem isShort_one : IsShort 1 := ⟨1, 0, by norm_num, by simp⟩

theorem isShort_two_pow (k : ℕ) : IsShort (2 ^ k) := ⟨1, k, by norm_num, by simp⟩

theorem isShort_div_two_pow {m : ℕ} (h : m ≤ 2 ^ 53) (k : ℕ) : IsShort (m / 2 ^ k) :=
  ⟨m, -k, h, by rw [zpow_neg, zpow_natCast, div_eq_mul_inv]⟩

/-- What a positive number may be rounded to, if ties may go either way. -/
structure IsNearest (y x : ℚ) : Prop where
  /-- No number of 53 bits is nearer. -/
  abs_sub_le : ∀ z, IsShort z → |y - x| ≤ |z - x|
  /-- The error is at most half of the last of 53 bits. -/
  error_le : |y - x| ≤ x / 2 ^ 53

namespace IsNearest

variable {x y z : ℚ}

theorem eq_of_isShort (h : IsNearest y x) (hx : IsShort x) : y = x := by
  have hle := h.abs_sub_le x hx
  rw [sub_self, abs_zero] at hle
  exact sub_eq_zero.1 (abs_nonpos_iff.1 hle)

theorem le_of_le (h : IsNearest y x) (hz : IsShort z) (hle : z ≤ x) : z ≤ y := by
  by_contra hlt
  have habs := h.abs_sub_le z hz
  rw [abs_of_nonpos (by linarith), abs_of_nonpos (by linarith)] at habs
  linarith

theorem ge_of_ge (h : IsNearest y x) (hz : IsShort z) (hle : x ≤ z) : y ≤ z := by
  by_contra hlt
  have habs := h.abs_sub_le z hz
  rw [abs_of_nonneg (by linarith), abs_of_nonneg (by linarith)] at habs
  linarith

theorem nonneg (h : IsNearest y x) (hx : 0 ≤ x) : 0 ≤ y := by
  have hzero : IsShort 0 := ⟨0, 0, Nat.zero_le _, by simp⟩
  exact h.le_of_le hzero hx

end IsNearest

/-! ### Rounding to a natural -/

/-- A natural within one half of a number is as near to it as any other natural. -/
theorem abs_sub_le_of_natural {m : ℕ} {t : ℚ} (h : |(m : ℚ) - t| ≤ 1 / 2) (k : ℕ) :
    |(m : ℚ) - t| ≤ |(k : ℚ) - t| := by
  rcases eq_or_ne k m with rfl | hne
  · exact le_rfl
  · have hone : (1 : ℚ) ≤ |(k : ℚ) - m| := by
      have hint : (1 : ℤ) ≤ |(k : ℤ) - m| := Int.one_le_abs (sub_ne_zero.2 (by exact_mod_cast hne))
      exact_mod_cast hint
    have htriangle : |(k : ℚ) - m| ≤ |(k : ℚ) - t| + |(m : ℚ) - t| := by
      rw [abs_sub_comm (m : ℚ) t]
      exact abs_sub_le _ _ _
    linarith

/-- **With 53 bits in front of the point, the nearest number of 53 bits is a natural.** -/
theorem isNearest_of_abs_sub_le {m : ℕ} {t : ℚ} (ht : 2 ^ 52 ≤ t) (h : |(m : ℚ) - t| ≤ 1 / 2)
    (e : ℤ) : IsNearest (m * 2 ^ e) (t * 2 ^ e) := by
  have hunit : (0 : ℚ) < 2 ^ e := by positivity
  have hscale : ∀ a : ℚ, |a * 2 ^ e - t * 2 ^ e| = |a - t| * 2 ^ e := fun a => by
    rw [← sub_mul, abs_mul, abs_of_pos hunit]
  constructor
  · rintro z ⟨n, f, hn, rfl⟩
    have hz : (n : ℚ) * 2 ^ f = n * 2 ^ (f - e) * 2 ^ e := by
      rw [mul_assoc, ← zpow_add₀ two_ne_zero, sub_add_cancel]
    rw [hz, hscale, hscale]
    refine mul_le_mul_of_nonneg_right ?_ hunit.le
    rcases le_or_gt e f with hle | hlt
    · -- with the exponent of the unit or a larger one it is a natural itself
      obtain ⟨k, hk⟩ := Int.eq_ofNat_of_zero_le (sub_nonneg.2 hle)
      rw [hk, zpow_natCast]
      exact_mod_cast abs_sub_le_of_natural h (n * 2 ^ k)
    · -- otherwise it is not above `2 ^ 52`, which is a natural on the same side
      have hn' : (n : ℚ) ≤ 2 ^ 53 := by exact_mod_cast hn
      have hsmall : (n : ℚ) * 2 ^ (f - e) ≤ 2 ^ 52 := by
        calc (n : ℚ) * 2 ^ (f - e) ≤ 2 ^ 53 * 2 ^ (-1 : ℤ) := by
              gcongr
              · exact one_le_two
              · omega
          _ = 2 ^ 52 := by norm_num
      have hpower := abs_sub_le_of_natural h (2 ^ 52)
      rw [Nat.cast_pow, Nat.cast_ofNat,
        abs_of_nonpos (by linarith : (2 : ℚ) ^ 52 - t ≤ 0)] at hpower
      rw [abs_of_nonpos (by linarith : (n : ℚ) * 2 ^ (f - e) - t ≤ 0)]
      linarith
  · have hhalf : (1 : ℚ) / 2 ≤ t / 2 ^ 53 := by
      rw [le_div_iff₀ (by positivity)]
      linarith
    calc |(m : ℚ) * 2 ^ e - t * 2 ^ e| = |(m : ℚ) - t| * 2 ^ e := hscale m
      _ ≤ t / 2 ^ 53 * 2 ^ e := by gcongr; exact h.trans hhalf
      _ = t * 2 ^ e / 2 ^ 53 := by ring

/-- A natural within one half of a number of 53 bits has 53 bits or is the next power of two. -/
theorem significand_bounds {m : ℕ} {t : ℚ} (h : |(m : ℚ) - t| ≤ 1 / 2) (hlower : 2 ^ 52 ≤ t)
    (hupper : t ≤ 2 ^ 53) : 2 ^ 52 ≤ m ∧ m ≤ 2 ^ 53 := by
  obtain ⟨habove, hbelow⟩ := abs_le.1 h
  have hlow : ((2 ^ 52 : ℕ) : ℚ) < (m + 1 : ℕ) := by
    push_cast
    linarith
  have hhigh : (m : ℚ) < (2 ^ 53 + 1 : ℕ) := by
    push_cast
    linarith
  exact ⟨Nat.lt_succ_iff.1 (by exact_mod_cast hlow), Nat.lt_succ_iff.1 (by exact_mod_cast hhigh)⟩

/-- A rounded quotient is within one half of the quotient. -/
theorem abs_roundDiv_sub_le (n : ℕ) {d : ℕ} (hd : 0 < d) :
    |(roundDiv n d : ℚ) - n / d| ≤ 1 / 2 := by
  have hd' : (0 : ℚ) < d := by exact_mod_cast hd
  have hdiv := Nat.div_add_mod n d
  have hmod := Nat.mod_lt n hd
  have hnat : 2 * (roundDiv n d * d) ≤ 2 * n + d ∧ 2 * n ≤ 2 * (roundDiv n d * d) + d := by
    rw [Nat.mul_comm] at hdiv
    unfold roundDiv
    simp only
    generalize n / d = q at *
    generalize n % d = r at *
    split
    · omega
    · split
      · rw [Nat.add_mul]
        omega
      · rcases Nat.mod_two_eq_zero_or_one q with hparity | hparity <;>
          rw [hparity, Nat.add_mul] <;> omega
  have hlower : (2 : ℚ) * (roundDiv n d * d) ≤ 2 * n + d := by exact_mod_cast hnat.1
  have hupper : (2 : ℚ) * n ≤ 2 * (roundDiv n d * d) + d := by exact_mod_cast hnat.2
  rw [abs_le]
  constructor
  · have : (n : ℚ) / d ≤ roundDiv n d + 1 / 2 := by
      rw [div_le_iff₀ hd']
      linarith
    linarith
  · have : (roundDiv n d : ℚ) - 1 / 2 ≤ n / d := by
      rw [le_div_iff₀ hd']
      linarith
    linarith

/-! ### Doubles of 53 bits -/

namespace Parts

/-- What a double stands for without its sign. -/
def magnitude (p : Parts) : ℚ := p.significand * 2 ^ p.exponent

/-- A double whose significand has 53 bits. -/
def IsFull (p : Parts) : Prop := 2 ^ 52 ≤ p.significand ∧ p.significand < 2 ^ 53

theorem IsFull.pos {p : Parts} (h : p.IsFull) : 0 < p.significand :=
  lt_of_lt_of_le (by norm_num) h.1

theorem IsFull.log2 {p : Parts} (h : p.IsFull) : p.significand.log2 = 52 :=
  (Nat.log2_eq_iff h.pos.ne').2 h

theorem IsFull.magnitude_bounds {p : Parts} (h : p.IsFull) :
    (2 : ℚ) ^ (52 + p.exponent) ≤ p.magnitude ∧ p.magnitude < 2 ^ (53 + p.exponent) := by
  have hlower : ((2 ^ 52 : ℕ) : ℚ) ≤ p.significand := by exact_mod_cast h.1
  have hupper : (p.significand : ℚ) < ((2 ^ 53 : ℕ) : ℚ) := by exact_mod_cast h.2
  push_cast at hlower hupper
  rw [zpow_add₀ two_ne_zero, zpow_add₀ two_ne_zero]
  constructor
  · exact mul_le_mul_of_nonneg_right hlower (by positivity)
  · exact mul_lt_mul_of_pos_right hupper (by positivity)

/-- The double of 53 bits that a signed number is rounded to. -/
structure Rounds (p : Parts) (negative : Bool) (x : ℚ) : Prop where
  normal : p.IsNormal
  full : p.IsFull
  sign : p.negative = negative
  nearest : IsNearest p.magnitude x

/-- A significand of 53 bits with its exponent; if rounding has made it the next power of two, it is
halved. -/
def carry (negative : Bool) (m : ℕ) (e : ℤ) : Parts :=
  if m < 2 ^ 53 then ⟨negative, m, e⟩ else ⟨negative, 2 ^ 52, e + 1⟩

theorem carry_of_lt (negative : Bool) {m : ℕ} (e : ℤ) (h : m < 2 ^ 53) :
    carry negative m e = ⟨negative, m, e⟩ := if_pos h

theorem carry_two_pow (negative : Bool) (e : ℤ) :
    carry negative (2 ^ 53) e = ⟨negative, 2 ^ 52, e + 1⟩ := if_neg (lt_irrefl _)

theorem magnitude_carry (negative : Bool) {m : ℕ} (e : ℤ) (h : m ≤ 2 ^ 53) :
    (carry negative m e).magnitude = m * 2 ^ e := by
  rcases h.lt_or_eq with hlt | rfl
  · rw [carry_of_lt negative e hlt, magnitude]
  · rw [carry_two_pow, magnitude, zpow_add_one₀ two_ne_zero]
    push_cast
    ring

/-- A significand that carries adds itself to the exponent field. -/
theorem bits_carry (negative : Bool) {m : ℕ} {e : ℤ} (he : minExponent ≤ e) (h : m ≤ 2 ^ 53) :
    (carry negative m e).bits = ((e - minExponent).toNat <<< 52) + m := by
  rcases h.lt_or_eq with hlt | rfl
  · rw [carry_of_lt negative e hlt, bits]
  · simp only [carry_two_pow, bits, Nat.shiftLeft_eq]
    omega

theorem carry_spec (negative : Bool) {m : ℕ} (e : ℤ) (h : 2 ^ 52 ≤ m ∧ m ≤ 2 ^ 53) :
    (carry negative m e).IsFull ∧ (carry negative m e).negative = negative ∧
      e ≤ (carry negative m e).exponent := by
  obtain ⟨hlower, hupper⟩ := h
  rcases hupper.lt_or_eq with hlt | rfl
  · rw [carry_of_lt negative e hlt]
    exact ⟨⟨hlower, hlt⟩, rfl, le_rfl⟩
  · rw [carry_two_pow]
    exact ⟨⟨le_rfl, by norm_num⟩, rfl, Int.le_add_one le_rfl⟩

theorem rounds_carry (negative : Bool) {m : ℕ} {e : ℤ} {t : ℚ} (hmin : minExponent ≤ e)
    (hmax : e < 971) (hlower : 2 ^ 52 ≤ t) (hupper : t ≤ 2 ^ 53) (h : |(m : ℚ) - t| ≤ 1 / 2) :
    (carry negative m e).Rounds negative (t * 2 ^ e) := by
  obtain ⟨hm, hm'⟩ := significand_bounds h hlower hupper
  have hnearest : IsNearest (carry negative m e).magnitude (t * 2 ^ e) := by
    rw [magnitude_carry negative e hm']
    exact isNearest_of_abs_sub_le hlower h e
  rcases hm'.lt_or_eq with hlt | rfl
  · rw [carry_of_lt negative e hlt] at hnearest ⊢
    exact ⟨⟨hmin, hmax.le, hlt, .inl hm⟩, ⟨hm, hlt⟩, rfl, hnearest⟩
  · rw [carry_two_pow] at hnearest ⊢
    exact ⟨⟨Int.le_add_one hmin, hmax, by norm_num, .inl le_rfl⟩, ⟨le_rfl, by norm_num⟩, rfl,
      hnearest⟩

end Parts

/-- **Quotients are rounded to the nearest double**, from the smallest double of 53 bits on. -/
theorem exists_parts?_nearest {n d : ℕ} (hn : 0 < n) (hd : 0 < d)
    (hlower : (2 : ℚ) ^ (-1022 : ℤ) ≤ n / d) (hupper : (n : ℚ) / d < 2 ^ (1023 : ℤ))
    (negative : Bool) :
    ∃ p, parts? (nearest negative n d) = some p ∧ p.Rounds negative (n / d) := by
  let e := exponentOf n d
  obtain ⟨hmin, hhigh, hlow⟩ : minExponent ≤ e ∧ (n : ℚ) / d < 2 ^ (e + 53) ∧
      (2 ^ (e + 52) ≤ (n : ℚ) / d ∨ e = minExponent) := exponentOf_spec hn hd
  have hlow : (2 : ℚ) ^ (e + 52) ≤ n / d := by
    rcases hlow with hlow | he
    · exact hlow
    · rw [he]
      exact hlower
  have hmax : e + 52 < 1023 := (zpow_lt_zpow_iff_right₀ one_lt_two).1 (hlow.trans_lt hupper)
  -- the scaled quotient has 53 bits in front of the point
  obtain ⟨hb, hscale⟩ := scale_spec n hd e
  have hunit : (0 : ℚ) < 2 ^ e := by positivity
  have hpow : ∀ k : ℕ, (2 : ℚ) ^ (e + k) = 2 ^ k * 2 ^ e := fun k => by
    rw [zpow_add₀ two_ne_zero, mul_comm, zpow_natCast]
  have hlow : 2 ^ 52 ≤ (n : ℚ) / d / 2 ^ e := by
    rw [le_div_iff₀ hunit, ← hpow]
    exact hlow
  have hhigh : (n : ℚ) / d / 2 ^ e ≤ 2 ^ 53 := by
    rw [div_le_iff₀ hunit, ← hpow]
    exact hhigh.le
  let m := roundDiv (scale n d e).1 (scale n d e).2
  have hm : |(m : ℚ) - n / d / 2 ^ e| ≤ 1 / 2 := hscale ▸ abs_roundDiv_sub_le _ hb
  have hrounds := Parts.rounds_carry negative hmin (by omega) hlow hhigh hm
  rw [div_mul_cancel₀ _ hunit.ne'] at hrounds
  have hbits := Parts.bits_carry negative hmin (significand_bounds hm hlow hhigh).2
  refine ⟨_, ?_, hrounds⟩
  have hdef : nearest negative n d = ofMagnitude negative
      (min ((Parts.carry negative m e).bits) infinityBits) := by
    rw [hbits]
    exact if_neg hn.ne'
  rw [hdef, min_eq_left hrounds.normal.bits_le]
  have hparts := parts?_ofMagnitude_bits hrounds.normal
  rwa [hrounds.sign] at hparts

end Abacus.Binary64
