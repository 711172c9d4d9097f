import Abacus.Proofs.Binary64.Rounding
import Mathlib

/-!
# Doubles and their bits

A finite double is given by its parts (`ofMagnitude_bits`), and what is put together from bits up to
those of infinity has these bits (`toBits_ofMagnitude`), so that what is rounded has the sign that
it is given.
-/

namespace Abacus.Binary64

/-- The bits of a double are its sign, its exponent field and its fraction. -/
theorem toBits_eq (x : Float) :
    x.toBits.toNat = (if isNegative x then 1 <<< 63 else 0) +
      (x.toBits.toNat / 2 ^ 52 % 2048 * 2 ^ 52 + x.toBits.toNat % 2 ^ 52) := by
  have hlt : x.toBits.toNat < 2 ^ 64 := x.toBits.toNat_lt
  have hmagnitude : x.toBits.toNat / 2 ^ 52 % 2048 * 2 ^ 52 + x.toBits.toNat % 2 ^ 52 =
      x.toBits.toNat % 2 ^ 63 := by omega
  rw [hmagnitude, isNegative, Nat.shiftRight_eq_div_pow, Nat.shiftLeft_eq]
  by_cases hs : x.toBits.toNat / 2 ^ 63 = 1
  · rw [hs]
    simp
    omega
  · rw [if_neg (by simpa using hs)]
    omega

/-- The parts of a double, with the fields of its bits as quotients and remainders. -/
theorem parts?_eq (x : Float) :
    parts? x =
      if x.toBits.toNat / 2 ^ 52 % 2048 = 2047 then none
      else if x.toBits.toNat / 2 ^ 52 % 2048 = 0 then
        some ⟨isNegative x, x.toBits.toNat % 2 ^ 52, minExponent⟩
      else some ⟨isNegative x, 2 ^ 52 + x.toBits.toNat % 2 ^ 52,
        minExponent + ((x.toBits.toNat / 2 ^ 52 % 2048 : ℕ) : ℤ) - 1⟩ := by
  simp only [parts?, isNegative, Nat.shiftRight_eq_div_pow, Nat.shiftLeft_eq, Nat.one_mul,
    maxField]

/-- The parts of a double are in normal form, and they make up its bits. -/
theorem parts?_spec {x : Float} {p : Parts} (h : parts? x = some p) :
    p.IsNormal ∧ p.negative = isNegative x ∧
      x.toBits.toNat = (if p.negative then 1 <<< 63 else 0) + p.bits := by
  have hfield : x.toBits.toNat / 2 ^ 52 % 2048 < 2048 := Nat.mod_lt _ (by decide)
  have hfraction : x.toBits.toNat % 2 ^ 52 < 2 ^ 52 := Nat.mod_lt _ (by decide)
  have hbits := toBits_eq x
  rw [parts?_eq] at h
  generalize x.toBits.toNat = b at *
  generalize isNegative x = negative at *
  generalize b / 2 ^ 52 % 2048 = field at *
  generalize b % 2 ^ 52 = fraction at *
  split at h
  · cases h
  · split at h
    · next hzero =>
      -- the significand has no leading bit
      cases h
      subst hzero
      have hlt : fraction < 2 ^ 53 := by omega
      refine ⟨⟨le_rfl, by simp [minExponent], hlt, .inr rfl⟩, rfl, ?_⟩
      simpa [Parts.bits] using hbits
    · -- the leading bit of the significand adds itself to the exponent field
      cases h
      have hmin : minExponent ≤ minExponent + (field : ℤ) - 1 := by omega
      have hmax : minExponent + (field : ℤ) - 1 ≤ 971 := by
        simp only [minExponent]
        omega
      have hlt : 2 ^ 52 + fraction < 2 ^ 53 := by omega
      refine ⟨⟨hmin, hmax, hlt, .inl (Nat.le_add_right _ _)⟩, rfl, ?_⟩
      have hshift : (minExponent + (field : ℤ) - 1 - minExponent).toNat = field - 1 := by omega
      rw [hbits, Parts.bits, hshift, Nat.shiftLeft_eq (field - 1)]
      dsimp only
      omega

open Float.Model (UnpackedFloat) in
/-- What has parts is a number. -/
theorem isNaN_eq_false {x : Float} {p : Parts} (h : parts? x = some p) : x.isNaN = false := by
  rw [Bool.eq_false_iff]
  intro hnan
  have hbits : x.toBits.toBitVec = UnpackedFloat.packedNaN .binary64 :=
    (UnpackedFloat.isNaN_unpack_iff_of_valid x.toModel.valid).1 hnan
  have hnat : x.toBits.toNat = 0x7ff8 <<< 48 := by
    rw [← UInt64.toNat_toBitVec, hbits]
    decide
  simp [parts?, hnat, maxField] at h

/-- A finite double is put together again from its parts. -/
theorem ofMagnitude_bits {x : Float} {p : Parts} (h : parts? x = some p) :
    ofMagnitude p.negative p.bits = x := by
  obtain ⟨-, -, hbits⟩ := parts?_spec h
  have hb : (if p.negative then (1 <<< 63) + p.bits else p.bits) = x.toBits.toNat := by
    rw [hbits]
    split
    · rfl
    · rw [Nat.zero_add]
  rw [ofMagnitude, hb, UInt64.ofNat_toNat, Float.ofBits_toBits]

open Float.Model (UnpackedFloat) in
/-- Up to infinity all bits are those of a double, with a sign in front of them. -/
theorem toBits_ofMagnitude {bits : ℕ} (h : bits ≤ infinityBits) (negative : Bool) :
    (ofMagnitude negative bits).toBits.toNat = (if negative then 1 <<< 63 else 0) + bits := by
  rw [show infinityBits = 2047 * 2 ^ 52 by decide] at h
  let word := UInt64.ofNat (if negative then (1 <<< 63) + bits else bits)
  have hb : word.toBitVec.toNat = (if negative then 1 <<< 63 else 0) + bits := by
    rw [UInt64.toNat_toBitVec, UInt64.toNat_ofNat']
    cases negative <;> simp <;> omega
  have hnan : @UnpackedFloat.isNaNBits .binary64 word.toBitVec = false := by
    -- infinity alone has the largest exponent field
    rw [UnpackedFloat.isNaNBits, decide_eq_false_iff_not, UnpackedFloat.unpackExponent_def,
      UnpackedFloat.unpackMantissa_def]
    rintro ⟨hexponent, hmantissa⟩
    have he := congrArg BitVec.toNat hexponent
    rw [BitVec.extractLsb'_toNat, hb] at he
    apply hmantissa
    apply BitVec.eq_of_toNat_eq
    rw [BitVec.extractLsb'_toNat, hb]
    cases negative <;> simp at he ⊢ <;> rw [Nat.shiftRight_eq_div_pow] at he <;> omega
  have hpack : (ofMagnitude negative bits).toBits.toBitVec = word.toBitVec := by
    have hpack := @UnpackedFloat.pack_unpack .binary64 word.toBitVec
    rw [hnan] at hpack
    exact hpack
  rw [← UInt64.toNat_toBitVec, hpack, hb]

theorem isNegative_ofMagnitude {bits : ℕ} (h : bits ≤ infinityBits) (negative : Bool) :
    isNegative (ofMagnitude negative bits) = negative := by
  rw [isNegative, toBits_ofMagnitude h, Nat.shiftRight_eq_div_pow]
  rw [show infinityBits = 2047 * 2 ^ 52 by decide] at h
  cases negative <;> simp <;> omega

/-- A double is what its bits say. -/
theorem parts?_ofMagnitude_bits {p : Parts} (hp : p.IsNormal) :
    parts? (ofMagnitude p.negative p.bits) = some p := by
  have hbits := hp.bits_le
  rw [parts?_eq, isNegative_ofMagnitude hbits, toBits_ofMagnitude hbits]
  obtain ⟨hmin, hmax, hlt, hnormal⟩ := hp
  obtain ⟨negative, significand, exponent⟩ := p
  dsimp only at hmin hmax hlt hnormal ⊢
  obtain ⟨k, rfl⟩ : ∃ k : ℕ, exponent = minExponent + k :=
    ⟨(exponent - minExponent).toNat, by omega⟩
  have hsum : Parts.bits ⟨negative, significand, minExponent + k⟩ = k * 2 ^ 52 + significand := by
    simp [Parts.bits, Nat.shiftLeft_eq]
  have hk : k ≤ 2045 := by
    simp only [minExponent] at hmax
    omega
  have hsign : ∀ b < 2 ^ 63, ((if negative then 1 <<< 63 else 0) + b) / 2 ^ 52 % 2048 = b / 2 ^ 52 ∧
      ((if negative then 1 <<< 63 else 0) + b) % 2 ^ 52 = b % 2 ^ 52 := by
    intro b hb
    cases negative <;> simp <;> omega
  rw [hsum] at *
  obtain ⟨hfield, hfraction⟩ := hsign (k * 2 ^ 52 + significand) (by omega)
  rw [hfield, hfraction]
  rcases Nat.lt_or_ge significand (2 ^ 52) with hsmall | hfull
  · have hzero : k = 0 := by
      have := hnormal.resolve_left (by omega)
      omega
    subst hzero
    rw [if_neg (by omega), if_pos (by omega)]
    simp
    omega
  · have hquotient : (k * 2 ^ 52 + significand) / 2 ^ 52 = k + 1 := by omega
    have hremainder : (k * 2 ^ 52 + significand) % 2 ^ 52 = significand - 2 ^ 52 := by omega
    rw [hquotient, hremainder, if_neg (by omega), if_neg (by omega)]
    simp
    omega

theorem isNegative_nearest (n d : ℕ) : isNegative (nearest false n d) = false := by
  unfold nearest
  split
  · exact isNegative_ofMagnitude (Nat.zero_le _) false
  · exact isNegative_ofMagnitude (Nat.min_le_right _ _) false

end Abacus.Binary64
