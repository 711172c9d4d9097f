import Abacus.Proofs.Binary64.Division
import Abacus.Proofs.Binary64.Values

/-!
# Whole parts of doubles

The floor of a finite double is exact: it stands for the floor of the number that the double stands
for (`HasValue.floor`). A double with a nonnegative exponent is an integer already, and with a
negative one its magnitude is below `2 ^ 52`, so that the floor has at most 53 bits. An integer
within the range of 64 bits that a double stands for is also what truncation yields
(`HasValue.truncated`).
-/

namespace Abacus.Binary64

open Float.Model (UnpackedFloat)

namespace Parts

theorem value_eq_signed (p : Parts) : p.value = (p.signed p.significand : ℤ) * 2 ^ p.exponent := by
  unfold value magnitude signed
  split <;> push_cast <;> ring

/-- With a nonnegative exponent a double is an integer. -/
theorem value_of_exponent_nonneg {p : Parts} (h : 0 ≤ p.exponent) :
    p.value = (p.signed (p.significand <<< p.exponent.toNat) : ℤ) := by
  obtain ⟨k, hk⟩ := Int.eq_ofNat_of_zero_le h
  rw [value_eq_signed, hk, Int.toNat_natCast, zpow_natCast, Nat.shiftLeft_eq]
  unfold signed
  split <;> push_cast <;> ring

theorem value_of_exponent_neg {p : Parts} (h : p.exponent < 0) :
    p.value = (p.signed p.significand : ℤ) / (2 ^ (-p.exponent).toNat : ℕ) := by
  obtain ⟨k, hk⟩ := Int.exists_eq_neg_ofNat h.le
  rw [value_eq_signed, hk, neg_neg, Int.toNat_natCast, zpow_neg, zpow_natCast, div_eq_mul_inv]
  push_cast
  rfl

theorem floor_eq (p : Parts) : p.floor = ⌊p.value⌋ := by
  unfold floor
  split
  · next h => rw [value_of_exponent_nonneg h, Int.floor_intCast]
  · next h =>
    rw [value_of_exponent_neg (not_le.1 h), Rat.floor_intCast_div_natCast,
      Int.shiftRight_eq_div_pow]

/-- The magnitude of a double that is not an integer leaves a floor of 53 bits. -/
theorem IsNormal.natAbs_floor_le {p : Parts} (hp : p.IsNormal) (h : p.exponent < 0) :
    p.floor.natAbs ≤ 2 ^ 52 := by
  have hlt : |p.value| < 2 ^ 52 := by
    rw [abs_value]
    exact_mod_cast hp.magnitude_lt_two_pow (k := 52) (by omega)
  obtain ⟨hlower, hupper⟩ := abs_lt.1 hlt
  have hlower : -2 ^ 52 ≤ p.floor := by
    rw [floor_eq, Int.le_floor]
    push_cast
    exact hlower.le
  have hupper : p.floor < 2 ^ 52 := by
    rw [floor_eq, Int.floor_lt]
    push_cast
    exact hupper
  omega

theorem IsNormal.zero (negative : Bool) : IsNormal ⟨negative, 0, minExponent⟩ :=
  ⟨le_rfl, by simp [minExponent], by norm_num, .inr rfl⟩

/-- The magnitude without its fractional part is the floor of the magnitude. -/
theorem wholeMagnitude_eq (p : Parts) : p.wholeMagnitude = ⌊p.magnitude⌋₊ := by
  unfold wholeMagnitude magnitude
  split
  · next h =>
    obtain ⟨k, hk⟩ := Int.eq_ofNat_of_zero_le h
    rw [hk, Int.toNat_natCast, zpow_natCast, Nat.shiftLeft_eq, ← Nat.floor_natCast (R := ℚ)
      (p.significand * 2 ^ k)]
    push_cast
    rfl
  · next h =>
    obtain ⟨k, hk⟩ := Int.exists_eq_neg_ofNat (not_le.1 h).le
    have hquotient : (p.significand : ℚ) * 2 ^ p.exponent = p.significand / (2 ^ k : ℕ) := by
      rw [hk, zpow_neg, zpow_natCast, div_eq_mul_inv]
      push_cast
      rfl
    rw [hquotient, Nat.floor_div_eq_div, hk, neg_neg, Int.toNat_natCast, Nat.shiftRight_eq_div_pow]

end Parts

namespace HasValue

variable {x : Float} {a : ℚ}

/-- A natural of 53 bits with a sign is rounded to itself. -/
theorem nearest {n : ℕ} (h : n ≤ 2 ^ 53) (negative : Bool) :
    HasValue (Binary64.nearest negative n 1) (if negative then -n else n) := by
  rcases Nat.eq_zero_or_pos n with rfl | hpos
  · have hdef : Binary64.nearest negative 0 1 = ofMagnitude negative 0 := if_pos rfl
    have hbits : Parts.bits ⟨negative, 0, minExponent⟩ = 0 := by
      rw [Parts.bits, sub_self]
      rfl
    have hparts := parts?_ofMagnitude_bits (Parts.IsNormal.zero negative)
    rw [hbits, ← hdef] at hparts
    refine ⟨_, hparts, ?_⟩
    rw [Parts.value_eq_zero rfl, Nat.cast_zero, neg_zero, ite_self]
  · obtain ⟨p, hp, hrounds, -, -⟩ := exists_parts?_natural hpos (by omega) negative
    refine ⟨p, hp, ?_⟩
    rw [Parts.value, hrounds.sign, hrounds.nearest.eq_of_isShort (isShort_natCast h)]

/-- **The floor of a double is exact.** -/
theorem floor (h : HasValue x a) : HasValue (Binary64.floor x) ⌊a⌋ := by
  obtain ⟨p, hp, rfl⟩ := h
  have hnormal := (parts?_spec hp).1
  unfold Binary64.floor
  rw [hp]
  dsimp only
  split
  · next he =>
    rw [← Parts.floor_eq, Parts.floor, if_pos he, ← Parts.value_of_exponent_nonneg he]
    exact hasValue_of_parts? hp
  · next he =>
    -- a floor below zero has the sign of the double, and so has one above
    have hfloor := hnormal.natAbs_floor_le (not_le.1 he)
    have hsign : (if p.negative then -(p.floor.natAbs : ℚ) else p.floor.natAbs) = ⌊p.value⌋ := by
      have hmagnitude := p.magnitude_nonneg
      rw [Nat.cast_natAbs, ← Parts.floor_eq]
      split
      · next hneg =>
        have hnonpos : p.floor ≤ 0 := by
          rw [Parts.floor_eq, Parts.value, if_pos hneg]
          exact Int.floor_nonpos (by linarith)
        rw [abs_of_nonpos hnonpos, Int.cast_neg, neg_neg]
      · next hpos =>
        have hnonneg : 0 ≤ p.floor := by
          rw [Parts.floor_eq, Parts.value, if_neg hpos]
          exact Int.floor_nonneg.2 hmagnitude
        rw [abs_of_nonneg hnonneg]
    rw [← hsign]
    exact nearest (by omega) p.negative

/-- **An integer that a double stands for is what truncation yields.** -/
theorem truncated {n : ℤ} (h : HasValue x n) (hmin : minInt ≤ n) (hmax : n ≤ maxInt) :
    Binary64.truncated x = n := by
  obtain ⟨p, hp, hvalue⟩ := h
  have hwhole : p.signed p.wholeMagnitude = n := by
    have hmagnitude : p.magnitude = (n.natAbs : ℚ) := by
      rw [← p.abs_value, hvalue, ← Int.cast_abs, ← Nat.cast_natAbs]
    have hsigned : (p.signed p.wholeMagnitude : ℚ) = n := by
      rw [← hvalue, p.wholeMagnitude_eq, hmagnitude, Nat.floor_natCast, Parts.value, hmagnitude,
        Parts.signed]
      split <;> simp only [Int.cast_neg, Int.cast_natCast]
    exact_mod_cast hsigned
  simp only [Binary64.truncated, saturate, hp, hwhole, clamp]
  omega

end HasValue

/-- An infinity is its own floor. -/
theorem floor_of_unpack_eq_infinity {x : Float} {s : UnpackedFloat.Sign}
    (h : x.toModel.unpack = .infinity s) : floor x = x := by
  unfold floor
  cases hx : parts? x with
  | none => rfl
  | some p => exact absurd h (hasValue_of_parts? hx).unpack_ne_infinity

end Abacus.Binary64
