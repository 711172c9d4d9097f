import Abacus.Binary64.Basic
import Mathlib.Algebra.Order.Field.Power
import Mathlib.Data.Rat.Cast.Order
import Mathlib.Tactic.FieldSimp
import Mathlib.Tactic.GCongr
import Mathlib.Tactic.Linarith
import Mathlib.Tactic.NormNum
import Mathlib.Tactic.Positivity
import Mathlib.Tactic.Ring

/-!
# Rounding to the nearest double

A positive double is nearest to the rationals of an interval around it, its ends included if the
significand is even (`Parts.Covers`). `nearest` rounds every quotient of that interval to the double
(`nearest_eq_of_covers`).

The interval reaches half a unit of the significand up and down. At a power of two it reaches only a
quarter of a unit down, because the doubles below lie twice as densely. What is rounded up from
there has the exponent below and a significand that carries.

Rationals stand for quotients of naturals throughout. A quotient is compared with powers of two by
the lengths of its two sides (`div_bounds`), which leave its exponent open by one; the scaled
quotient settles it (`exponentOf_spec`). In the interval of a double this exponent is that of the
double but in the case just named (`exponentOf_of_covers`).
-/

namespace Abacus.Binary64

/-! ### Quotients -/

/-- Scaling divides a quotient by a power of two. -/
theorem scale_spec (n : ℕ) {d : ℕ} (hd : 0 < d) (e : ℤ) :
    0 < (scale n d e).2 ∧ ((scale n d e).1 : ℚ) / (scale n d e).2 = n / d / 2 ^ e := by
  have hd' : (d : ℚ) ≠ 0 := by positivity
  unfold scale
  split
  · next he =>
    obtain ⟨k, rfl⟩ := Int.eq_ofNat_of_zero_le he
    refine ⟨by simp [Nat.shiftLeft_eq, hd], ?_⟩
    simp only [Int.toNat_natCast, Nat.shiftLeft_eq, Nat.cast_mul, Nat.cast_pow, Nat.cast_ofNat,
      zpow_natCast]
    field_simp
  · next he =>
    obtain ⟨k, hk⟩ := Int.eq_ofNat_of_zero_le (show 0 ≤ -e by omega)
    obtain rfl : e = -(k : ℤ) := by omega
    refine ⟨hd, ?_⟩
    simp only [neg_neg, Int.toNat_natCast, Nat.shiftLeft_eq, Nat.cast_mul, Nat.cast_pow,
      Nat.cast_ofNat, zpow_neg, zpow_natCast]
    field_simp

/-- A natural whose multiple of the divisor is at most half a divisor away is the rounded quotient,
at the ends if it is even. -/
theorem roundDiv_eq_of_le {n d m : ℕ} (hd : 0 < d) (hlower : 2 * (m * d) ≤ 2 * n + d)
    (hupper : 2 * n ≤ 2 * (m * d) + d)
    (hodd : m % 2 = 1 → 2 * (m * d) < 2 * n + d ∧ 2 * n < 2 * (m * d) + d) :
    roundDiv n d = m := by
  have hdiv := Nat.div_add_mod n d
  have hmod := Nat.mod_lt n hd
  rw [Nat.mul_comm] at hdiv
  unfold roundDiv
  simp only
  generalize n / d = q at *
  generalize n % d = r at *
  have hcases : m = q ∨ m = q + 1 := by
    have hbelow : ¬ m + 1 ≤ q := by
      intro h
      have := Nat.mul_le_mul_right d h
      rw [Nat.add_mul] at this
      omega
    have habove : ¬ q + 2 ≤ m := by
      intro h
      have := Nat.mul_le_mul_right d h
      rw [Nat.add_mul] at this
      omega
    omega
  rcases hcases with rfl | rfl
  · -- the remainder is at most one half, and exactly that if the quotient is even
    have heven : d = 2 * r → m % 2 = 0 := by
      intro htie
      by_contra hm
      have := hodd (by omega)
      omega
    split
    · rfl
    · split <;> omega
  · rw [Nat.add_mul] at hlower hupper hodd
    have heven : d = 2 * r → (q + 1) % 2 = 0 := by
      intro htie
      by_contra hm
      have := hodd (by omega)
      omega
    split
    · omega
    · split <;> omega

/-- A quotient within half a unit of a natural is rounded to it, at the ends if it is even. -/
theorem roundDiv_eq {n d m : ℕ} (hd : 0 < d) (hlower : (m : ℚ) - 1 / 2 ≤ n / d)
    (hupper : (n : ℚ) / d ≤ m + 1 / 2)
    (hodd : m % 2 = 1 → (m : ℚ) - 1 / 2 < n / d ∧ (n : ℚ) / d < m + 1 / 2) :
    roundDiv n d = m := by
  have hd' : (0 : ℚ) < d := by exact_mod_cast hd
  refine roundDiv_eq_of_le hd ?_ ?_ fun hm => ?_
  · rw [le_div_iff₀ hd'] at hlower
    have : (2 * (m * d) : ℚ) ≤ 2 * n + d := by linarith
    exact_mod_cast this
  · rw [div_le_iff₀ hd'] at hupper
    have : (2 * n : ℚ) ≤ 2 * (m * d) + d := by linarith
    exact_mod_cast this
  · obtain ⟨h₁, h₂⟩ := hodd hm
    rw [lt_div_iff₀ hd'] at h₁
    rw [div_lt_iff₀ hd'] at h₂
    have h₁ : (2 * (m * d) : ℚ) < 2 * n + d := by linarith
    have h₂ : (2 * n : ℚ) < 2 * (m * d) + d := by linarith
    exact ⟨by exact_mod_cast h₁, by exact_mod_cast h₂⟩

/-- A quotient of naturals lies between two powers of two that their lengths give. -/
theorem div_bounds {n d : ℕ} (hn : 0 < n) (hd : 0 < d) :
    (2 : ℚ) ^ ((n.log2 : ℤ) - d.log2 - 1) < n / d ∧
      (n : ℚ) / d < 2 ^ ((n.log2 : ℤ) - d.log2 + 1) := by
  have hd' : (0 : ℚ) < d := by exact_mod_cast hd
  have hn₁ : (2 : ℚ) ^ n.log2 ≤ n := by exact_mod_cast Nat.log2_self_le hn.ne'
  have hn₂ : (n : ℚ) < 2 ^ (n.log2 + 1) := by exact_mod_cast Nat.lt_log2_self
  have hd₁ : (2 : ℚ) ^ d.log2 ≤ d := by exact_mod_cast Nat.log2_self_le hd.ne'
  have hd₂ : (d : ℚ) < 2 ^ (d.log2 + 1) := by exact_mod_cast Nat.lt_log2_self
  constructor
  · rw [lt_div_iff₀ hd']
    calc (2 : ℚ) ^ ((n.log2 : ℤ) - d.log2 - 1) * d
        < 2 ^ ((n.log2 : ℤ) - d.log2 - 1) * 2 ^ (d.log2 + 1) := by gcongr
      _ = 2 ^ n.log2 := by
        rw [← zpow_natCast, ← zpow_natCast, ← zpow_add₀ two_ne_zero]
        congr 1
        push_cast
        ring
      _ ≤ n := hn₁
  · rw [div_lt_iff₀ hd']
    calc (n : ℚ) < 2 ^ (n.log2 + 1) := hn₂
      _ = 2 ^ ((n.log2 : ℤ) - d.log2 + 1) * 2 ^ d.log2 := by
        rw [← zpow_natCast, ← zpow_natCast, ← zpow_add₀ two_ne_zero]
        congr 1
        push_cast
        ring
      _ ≤ 2 ^ ((n.log2 : ℤ) - d.log2 + 1) * d := by gcongr

/-- The exponent of a quotient leaves a significand of 53 bits, or of fewer at the smallest
exponent. -/
theorem exponentOf_spec {n d : ℕ} (hn : 0 < n) (hd : 0 < d) :
    minExponent ≤ exponentOf n d ∧ (n : ℚ) / d < 2 ^ (exponentOf n d + 53) ∧
      (2 ^ (exponentOf n d + 52) ≤ (n : ℚ) / d ∨ exponentOf n d = minExponent) := by
  obtain ⟨hlow, hhigh⟩ := div_bounds hn hd
  let e : ℤ := n.log2 - d.log2 - 52
  obtain ⟨hb, hscale⟩ := scale_spec n hd e
  -- the scaled quotient tells on which side of `2 ^ (e + 52)` the quotient lies
  have hcut : (scale n d e).1 / (scale n d e).2 < 1 <<< 52 ↔ (n : ℚ) / d < 2 ^ (e + 52) := by
    have hb' : (0 : ℚ) < (scale n d e).2 := by exact_mod_cast hb
    have hpow : (0 : ℚ) < 2 ^ e := by positivity
    rw [Nat.div_lt_iff_lt_mul hb, zpow_add₀ two_ne_zero, mul_comm ((2 : ℚ) ^ e),
      ← div_lt_iff₀ hpow, ← hscale, div_lt_iff₀ hb', Nat.shiftLeft_eq, Nat.one_mul,
      ← Nat.cast_lt (α := ℚ)]
    push_cast
    rfl
  have hdef : exponentOf n d = max minExponent
      (if (scale n d e).1 / (scale n d e).2 < 1 <<< 52 then e - 1 else e) := rfl
  -- the exponent as it is before the smallest one is taken into account
  have hexponent : ∃ e', exponentOf n d = max minExponent e' ∧ (n : ℚ) / d < 2 ^ (e' + 53) ∧
      2 ^ (e' + 52) ≤ (n : ℚ) / d := by
    -- the lengths of both sides leave two exponents, and the cut chooses between them
    by_cases hc : (n : ℚ) / d < 2 ^ (e + 52)
    · refine ⟨e - 1, by rw [hdef, if_pos (hcut.2 hc)], ?_, ?_⟩
      · rwa [show e - 1 + 53 = e + 52 by ring]
      · rw [show e - 1 + 52 = (n.log2 : ℤ) - d.log2 - 1 by simp only [e]; ring]
        exact hlow.le
    · refine ⟨e, by rw [hdef, if_neg (mt hcut.1 hc)], ?_, not_lt.1 hc⟩
      rwa [show e + 53 = (n.log2 : ℤ) - d.log2 + 1 by simp only [e]; ring]
  obtain ⟨e', he, hupper, hlower⟩ := hexponent
  rw [he]
  rcases le_total minExponent e' with hle | hle
  · rw [max_eq_right hle]
    exact ⟨hle, hupper, .inl hlower⟩
  · rw [max_eq_left hle]
    exact ⟨le_rfl, hupper.trans_le (zpow_le_zpow_right₀ one_le_two (by omega)), .inr rfl⟩

/-! ### The parts of a double -/

namespace Parts

/-- The form in which `parts?` gives the parts of a double. -/
structure IsNormal (p : Parts) : Prop where
  minExponent_le : minExponent ≤ p.exponent
  exponent_le : p.exponent ≤ 971
  lt : p.significand < 2 ^ 53
  normal : 2 ^ 52 ≤ p.significand ∨ p.exponent = minExponent

/-- The bits of the magnitude. -/
def bits (p : Parts) : Nat := ((p.exponent - minExponent).toNat <<< 52) + p.significand

theorem IsNormal.bits_le {p : Parts} (hp : p.IsNormal) : p.bits ≤ infinityBits := by
  obtain ⟨hmin, hmax, hlt, -⟩ := hp
  rw [show infinityBits = 2047 * 2 ^ 52 by decide, bits, Nat.shiftLeft_eq]
  simp only [minExponent] at hmin ⊢
  omega

end Parts

/-! ### What is rounded to a double -/

namespace Parts

/-- How far below the significand its interval reaches. -/
def lowerGap (p : Parts) : ℚ :=
  if p.significand = 2 ^ 52 ∧ minExponent < p.exponent then 1 / 4 else 1 / 2

/-- A rational lies in the interval of a double. -/
structure Covers (p : Parts) (x : ℚ) : Prop where
  lower_le : (p.significand - p.lowerGap) * 2 ^ p.exponent ≤ x
  le_upper : x ≤ (p.significand + 1 / 2) * 2 ^ p.exponent
  /-- The ends belong to even significands only. -/
  odd : p.significand % 2 = 1 → (p.significand - p.lowerGap) * 2 ^ p.exponent < x ∧
    x < (p.significand + 1 / 2) * 2 ^ p.exponent

variable {p : Parts}

theorem lowerGap_le (p : Parts) : p.lowerGap ≤ 1 / 2 := by
  unfold lowerGap
  split <;> norm_num

theorem Covers.pos {x : ℚ} (h : p.Covers x) (hp : 0 < p.significand) : 0 < x := by
  have hone : (1 : ℚ) ≤ p.significand := by exact_mod_cast hp
  have hgap := p.lowerGap_le
  have hu : (0 : ℚ) < 2 ^ p.exponent := by positivity
  refine lt_of_lt_of_le ?_ h.lower_le
  apply mul_pos _ hu
  linarith

end Parts

variable {p : Parts} {n d : ℕ}

/-- What lies in the interval of a double has its exponent, or the one below if the double is a
power of two and the quotient is less. -/
theorem exponentOf_of_covers (hp : p.IsNormal) (hn : 0 < n) (hd : 0 < d) (h : p.Covers (n / d)) :
    exponentOf n d = p.exponent ∨
      p.exponent = exponentOf n d + 1 ∧ p.significand = 2 ^ 52 ∧ p.lowerGap = 1 / 4 ∧
        (n : ℚ) / d < 2 ^ 52 * 2 ^ p.exponent := by
  obtain ⟨hmin, hupper, hlower⟩ := exponentOf_spec hn hd
  have hu : (0 : ℚ) < 2 ^ p.exponent := by positivity
  have hm : (p.significand : ℚ) + 1 ≤ 2 ^ 53 := by exact_mod_cast hp.lt
  have hx : (n : ℚ) / d < 2 ^ (p.exponent + 53) := by
    calc (n : ℚ) / d ≤ (p.significand + 1 / 2) * 2 ^ p.exponent := h.le_upper
      _ < 2 ^ 53 * 2 ^ p.exponent := by gcongr; linarith
      _ = 2 ^ (p.exponent + 53) := by rw [add_comm, zpow_add₀ two_ne_zero]; rfl
  have hle : exponentOf n d ≤ p.exponent := by
    by_contra hlt
    have hpow : (2 : ℚ) ^ (p.exponent + 53) ≤ 2 ^ (exponentOf n d + 52) :=
      zpow_le_zpow_right₀ one_le_two (by omega)
    rcases hlower with hlower | hlower
    · linarith
    · have := hp.minExponent_le
      omega
  rcases hle.eq_or_lt with heq | hlt
  · exact .inl heq
  · -- the quotient is below the power of two, and only half a unit below it there is another double
    have hhigh : 2 ^ 52 ≤ p.significand := hp.normal.resolve_right (by omega)
    have hbelow : (n : ℚ) / d < 2 ^ 52 * 2 ^ p.exponent := by
      calc (n : ℚ) / d < 2 ^ (exponentOf n d + 53) := hupper
        _ ≤ 2 ^ (52 + p.exponent) := zpow_le_zpow_right₀ one_le_two (by omega)
        _ = 2 ^ 52 * 2 ^ p.exponent := by rw [zpow_add₀ two_ne_zero]; rfl
    have hsignificand : p.significand = 2 ^ 52 := by
      refine le_antisymm (Nat.lt_succ_iff.1 ?_) hhigh
      have hgap := p.lowerGap_le
      have hlt := lt_of_mul_lt_mul_right (h.lower_le.trans_lt hbelow) hu.le
      have hlt : (p.significand : ℚ) < 2 ^ 52 + 1 := by linarith
      exact_mod_cast hlt
    have hgap : p.lowerGap = 1 / 4 := if_pos ⟨hsignificand, by omega⟩
    have hlower := h.lower_le
    rw [hgap, hsignificand] at hlower
    push_cast at hlower
    refine .inr ⟨?_, hsignificand, hgap, hbelow⟩
    by_contra hne
    have hsmall : (2 : ℚ) ^ (exponentOf n d + 53) ≤ 2 ^ (51 + p.exponent) :=
      zpow_le_zpow_right₀ one_le_two (by omega)
    rw [zpow_add₀ two_ne_zero 51] at hsmall
    have hlarge : (2 : ℚ) ^ (51 : ℤ) * 2 ^ p.exponent ≤ (2 ^ 52 - 1 / 4) * 2 ^ p.exponent := by
      gcongr
      norm_num
    linarith

/-- With the exponent of the double, the quotient is rounded to its significand. -/
theorem roundDiv_scale_of_covers (hd : 0 < d) (h : p.Covers (n / d)) :
    roundDiv (scale n d p.exponent).1 (scale n d p.exponent).2 = p.significand := by
  obtain ⟨hb, hscale⟩ := scale_spec n hd p.exponent
  have hu : (0 : ℚ) < 2 ^ p.exponent := by positivity
  have hhalf := p.lowerGap_le
  refine roundDiv_eq hb ?_ ?_ fun hodd => ?_
  · rw [hscale, le_div_iff₀ hu]
    refine le_trans ?_ h.lower_le
    gcongr
  · rw [hscale, div_le_iff₀ hu]
    exact h.le_upper
  · obtain ⟨hlower, hupper⟩ := h.odd hodd
    rw [hscale, lt_div_iff₀ hu, div_lt_iff₀ hu]
    refine ⟨lt_of_le_of_lt ?_ hlower, hupper⟩
    gcongr

/-- With the exponent below that of a power of two, the quotient is rounded up to the next one. -/
theorem roundDiv_scale_of_lt {e : ℤ} (hd : 0 < d) (h : p.Covers (n / d)) (he : p.exponent = e + 1)
    (hsignificand : p.significand = 2 ^ 52) (hgap : p.lowerGap = 1 / 4)
    (hbelow : (n : ℚ) / d < 2 ^ 52 * 2 ^ p.exponent) :
    roundDiv (scale n d e).1 (scale n d e).2 = 2 ^ 53 := by
  obtain ⟨hb, hscale⟩ := scale_spec n hd e
  have hlower := h.lower_le
  have hu : (2 : ℚ) ^ p.exponent = 2 * 2 ^ e := by
    rw [he, zpow_add_one₀ two_ne_zero, mul_comm]
  rw [hgap, hsignificand, hu] at hlower
  push_cast at hlower
  rw [hu] at hbelow
  have hpow : (0 : ℚ) < 2 ^ e := by positivity
  refine roundDiv_eq hb ?_ ?_ fun hodd => by omega
  · rw [hscale, le_div_iff₀ hpow]
    push_cast
    linarith
  · rw [hscale, div_le_iff₀ hpow]
    push_cast
    linarith

/-- **Rounding is to the nearest double.** A quotient in the interval of a double is rounded to it.
-/
theorem nearest_eq_of_covers (hp : p.IsNormal) (hn : 0 < n) (hd : 0 < d) (h : p.Covers (n / d))
    (negative : Bool) : nearest negative n d = ofMagnitude negative p.bits := by
  have hbits : ((exponentOf n d - minExponent).toNat <<< 52) +
      roundDiv (scale n d (exponentOf n d)).1 (scale n d (exponentOf n d)).2 = p.bits := by
    have hmin := (exponentOf_spec hn hd).1
    rcases exponentOf_of_covers hp hn hd h with heq | ⟨heq, hsignificand, hgap, hbelow⟩
    · rw [heq, roundDiv_scale_of_covers hd h, Parts.bits]
    · -- the significand carries into the exponent field
      rw [roundDiv_scale_of_lt hd h heq hsignificand hgap hbelow, Parts.bits, hsignificand, heq]
      simp only [Nat.shiftLeft_eq]
      omega
  have hdef : nearest negative n d = ofMagnitude negative (min
      (((exponentOf n d - minExponent).toNat <<< 52) +
        roundDiv (scale n d (exponentOf n d)).1 (scale n d (exponentOf n d)).2) infinityBits) :=
    if_neg hn.ne'
  rw [hdef, hbits, min_eq_left hp.bits_le]

end Abacus.Binary64
