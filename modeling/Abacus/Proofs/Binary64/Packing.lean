import Abacus.Proofs.Binary64.Nearest

/-!
# Packing and unpacking

Every operation on doubles takes the bits of its operands apart, computes, and puts the bits of the
result together. What it works with is a sign alone for the two zeros, and the parts for all other
finite doubles (`Parts.unpacked`). Both ways are the same for normal and subnormal doubles: the bits
of a double with parts are unpacked to these parts (`unpack_eq`), and parts in normal form are
packed into the bits of a double that has them (`parts?_of_pack`).
-/

namespace Abacus.Binary64

open Float.Model (Format UnpackedFloat)
open Float.Model.UnpackedFloat (Sign)

/-- The sign of a double. -/
def signOf (negative : Bool) : Sign := if negative then .negative else .positive

/-- What the operations on doubles work with. -/
def Parts.unpacked (p : Parts) : UnpackedFloat :=
  if h : 0 < p.significand then .finite (signOf p.negative) p.significand p.exponent h
  else .zero (signOf p.negative)

theorem Parts.unpacked_of_pos {p : Parts} (h : 0 < p.significand) :
    p.unpacked = .finite (signOf p.negative) p.significand p.exponent h := dif_pos h

theorem Parts.unpacked_zero (negative : Bool) (e : ℤ) :
    Parts.unpacked ⟨negative, 0, e⟩ = .zero (signOf negative) := dif_neg (lt_irrefl 0)

/-! ### Unpacking -/

theorem toNat_unpackExponent (x : Float) :
    (@UnpackedFloat.unpackExponent .binary64 x.toBits.toBitVec).toNat =
      x.toBits.toNat / 2 ^ 52 % 2048 := by
  rw [UnpackedFloat.unpackExponent_def, BitVec.extractLsb'_toNat, UInt64.toNat_toBitVec,
    Nat.shiftRight_eq_div_pow]
  rfl

theorem toNat_unpackMantissa (x : Float) :
    (@UnpackedFloat.unpackMantissa .binary64 x.toBits.toBitVec).toNat =
      x.toBits.toNat % 2 ^ 52 := by
  rw [UnpackedFloat.unpackMantissa_def, BitVec.extractLsb'_toNat, UInt64.toNat_toBitVec,
    Nat.shiftRight_zero]

theorem ofBitVec_unpackSign (x : Float) :
    Sign.ofBitVec (@UnpackedFloat.unpackSign .binary64 x.toBits.toBitVec) =
      signOf (isNegative x) := by
  have hlt : x.toBits.toNat / 2 ^ 63 < 2 := by
    have := x.toBits.toNat_lt
    omega
  have hsign : (@UnpackedFloat.unpackSign .binary64 x.toBits.toBitVec).toNat =
      x.toBits.toNat / 2 ^ 63 := by
    rw [UnpackedFloat.unpackSign_def, BitVec.extractLsb'_toNat, UInt64.toNat_toBitVec,
      Nat.shiftRight_eq_div_pow]
    exact Nat.mod_eq_of_lt hlt
  have hzero : @UnpackedFloat.unpackSign .binary64 x.toBits.toBitVec = 0#1 ↔
      x.toBits.toNat / 2 ^ 63 = 0 := by
    rw [← BitVec.toNat_inj, hsign]
    rfl
  rw [isNegative, Nat.shiftRight_eq_div_pow, Sign.ofBitVec]
  by_cases h : x.toBits.toNat / 2 ^ 63 = 0
  · rw [if_pos (hzero.2 h), h]
    rfl
  · rw [if_neg (mt hzero.1 h), show x.toBits.toNat / 2 ^ 63 = 1 by omega]
    rfl

theorem unpackExponent_eq_iff (x : Float) (c : BitVec 11) :
    @UnpackedFloat.unpackExponent .binary64 x.toBits.toBitVec = c ↔
      x.toBits.toNat / 2 ^ 52 % 2048 = c.toNat := by
  rw [← BitVec.toNat_inj, toNat_unpackExponent]

/-- **The parts of a double are those that its operations work with.** -/
theorem unpack_eq {x : Float} {p : Parts} (h : parts? x = some p) :
    x.toModel.unpack = p.unpacked := by
  have hsign := ofBitVec_unpackSign x
  have hexponent := toNat_unpackExponent x
  have hmantissa := toNat_unpackMantissa x
  have hfield := unpackExponent_eq_iff x
  change UnpackedFloat.unpack .binary64 x.toBits.toBitVec = _
  rw [parts?_eq] at h
  simp only [UnpackedFloat.unpack]
  rw [hsign]
  generalize x.toBits.toNat / 2 ^ 52 % 2048 = field at *
  generalize x.toBits.toNat % 2 ^ 52 = fraction at *
  split at h
  · cases h
  · next hne =>
    rw [if_neg (mt (hfield (-1#11)).1 hne)]
    split at h
    · -- the fraction is the significand, and the double is a zero if that is zero
      next hzero =>
      cases h
      rw [if_pos ((hfield 0#11).2 hzero)]
      by_cases hfraction : @UnpackedFloat.unpackMantissa .binary64 x.toBits.toBitVec = 0#52
      · rw [hfraction, BitVec.toNat_zero] at hmantissa
        rw [dif_pos hfraction, ← hmantissa, Parts.unpacked_zero]
      · have hpos : 0 < fraction := by
          refine Nat.pos_of_ne_zero fun hfraction₀ => hfraction ?_
          rw [← BitVec.toNat_inj, hmantissa, hfraction₀, BitVec.toNat_zero]
        rw [dif_neg hfraction, Parts.unpacked_of_pos hpos, UnpackedFloat.finite.injEq, hexponent,
          hzero]
        exact ⟨rfl, hmantissa, rfl⟩
    · next hnormal =>
      cases h
      have hpos : 0 < 2 ^ 52 + fraction := by positivity
      rw [if_neg (mt (hfield 0#11).1 hnormal), Parts.unpacked_of_pos hpos,
        UnpackedFloat.finite.injEq, BitVec.toNat_append, hmantissa, hexponent]
      refine ⟨rfl, ?_, ?_⟩
      · have hlt : fraction < 2 ^ 52 := hmantissa ▸ BitVec.isLt _
        exact (Nat.shiftLeft_add_eq_or_of_lt hlt 1).symm
      · simp only [Format.exponentBias, minExponent]
        norm_num
        ring

/-- What has no parts is an infinity or not a number. -/
theorem unpack_eq_of_parts?_eq_none {x : Float} (h : parts? x = none) :
    x.toModel.unpack = .infinity (signOf (isNegative x)) ∨ x.toModel.unpack = .notANumber := by
  have hfield : x.toBits.toNat / 2 ^ 52 % 2048 = 2047 := by
    by_contra hne
    rw [parts?_eq, if_neg hne] at h
    split at h <;> cases h
  change UnpackedFloat.unpack .binary64 x.toBits.toBitVec = _ ∨
    UnpackedFloat.unpack .binary64 x.toBits.toBitVec = _
  simp only [UnpackedFloat.unpack]
  rw [if_pos ((unpackExponent_eq_iff x (-1#11)).2 hfield), ofBitVec_unpackSign]
  split
  · exact .inl rfl
  · exact .inr rfl

/-! ### Packing -/

theorem toNat_packComponents (negative : Bool) (field : BitVec 11) (fraction : BitVec 52) :
    (UnpackedFloat.packComponents .binary64 (signOf negative) field fraction).toNat =
      (if negative then 1 <<< 63 else 0) + ((field.toNat <<< 52) + fraction.toNat) := by
  have hsign : (signOf negative).toBitVec.toNat <<< 63 = if negative then 1 <<< 63 else 0 := by
    cases negative <;> rfl
  rw [UnpackedFloat.packComponents, BitVec.toNat_append, BitVec.toNat_append,
    ← Nat.shiftLeft_add_eq_or_of_lt fraction.isLt, ← Nat.shiftLeft_add_eq_or_of_lt field.isLt,
    ← hsign]
  simp only [Nat.shiftLeft_eq]
  omega

theorem Parts.toNat_pack_of_isFull {p : Parts} (hp : p.IsNormal) (hfull : p.IsFull) :
    (UnpackedFloat.pack .binary64 p.unpacked).toNat =
      (if p.negative then 1 <<< 63 else 0) + p.bits := by
  obtain ⟨hmin, hmax, -, -⟩ := hp
  have hlower := hfull.1
  have hupper := hfull.2
  -- the leading bit of the significand is left out, and the field is one larger in its place
  let field := (p.exponent + (Format.binary64.exponentBias : ℕ) + (52 : ℕ)).toNat
  have hfield : field = (p.exponent - minExponent).toNat + 1 ∧ field < 2047 := by
    simp only [field, Format.exponentBias, minExponent] at hmin ⊢
    omega
  have hsmall : ¬ 2 ^ 11 ≤ field + 1 := by omega
  have hpack : UnpackedFloat.pack .binary64 p.unpacked =
      UnpackedFloat.packComponents .binary64 (signOf p.negative) (BitVec.ofNat 11 field)
        (BitVec.ofNat 52 p.significand) := by
    rw [Parts.unpacked_of_pos hfull.pos]
    simp only [UnpackedFloat.pack]
    rw [if_neg hsmall, if_pos (by rw [hfull.log2]; rfl)]
  rw [hpack, toNat_packComponents, BitVec.toNat_ofNat, BitVec.toNat_ofNat,
    Nat.mod_eq_of_lt (by omega : field < 2 ^ 11), Parts.bits]
  simp only [Nat.shiftLeft_eq]
  omega

theorem Parts.toNat_pack_of_lt {p : Parts} (hp : p.IsNormal) (hlt : p.significand < 2 ^ 52) :
    (UnpackedFloat.pack .binary64 p.unpacked).toNat =
      (if p.negative then 1 <<< 63 else 0) + p.bits := by
  have hexponent : p.exponent = minExponent := hp.normal.resolve_left (by omega)
  have hpack : UnpackedFloat.pack .binary64 p.unpacked =
      UnpackedFloat.packComponents .binary64 (signOf p.negative) 0#11
        (BitVec.ofNat 52 p.significand) := by
    rcases Nat.eq_zero_or_pos p.significand with hzero | hpos
    · rw [Parts.unpacked, dif_neg (by omega), hzero]
      rfl
    · have hlog : p.significand.log2 + 1 ≠ Format.binary64.mantissaBits := by
        have hlt : p.significand.log2 < 52 := (Nat.log2_lt hpos.ne').2 hlt
        simp only [Format.mantissaBits]
        omega
      rw [Parts.unpacked_of_pos hpos, hexponent]
      simp only [UnpackedFloat.pack]
      rw [if_neg (by decide), if_neg hlog]
  rw [hpack, toNat_packComponents, BitVec.toNat_zero, BitVec.toNat_ofNat, Nat.mod_eq_of_lt hlt,
    Parts.bits, hexponent, sub_self]
  rfl

/-- Parts in normal form are packed into their bits. -/
theorem Parts.toNat_pack {p : Parts} (hp : p.IsNormal) :
    (UnpackedFloat.pack .binary64 p.unpacked).toNat =
      (if p.negative then 1 <<< 63 else 0) + p.bits := by
  rcases Nat.lt_or_ge p.significand (2 ^ 52) with hlt | hge
  · exact Parts.toNat_pack_of_lt hp hlt
  · exact Parts.toNat_pack_of_isFull hp ⟨hge, hp.lt⟩

/-- **A double that is packed from parts has these parts.** -/
theorem parts?_of_pack {x : Float} {p : Parts} (hp : p.IsNormal)
    (hx : x.toBits.toBitVec = UnpackedFloat.pack .binary64 p.unpacked) : parts? x = some p := by
  have hbits : x.toBits.toNat = if p.negative then (1 <<< 63) + p.bits else p.bits := by
    rw [← UInt64.toNat_toBitVec, hx, Parts.toNat_pack hp]
    split
    · rfl
    · rw [Nat.zero_add]
  have hmagnitude : ofMagnitude p.negative p.bits = x := by
    rw [ofMagnitude, ← hbits, UInt64.ofNat_toNat, Float.ofBits_toBits]
  rw [← hmagnitude]
  exact parts?_ofMagnitude_bits hp

end Abacus.Binary64
