import Abacus.Proofs.Binary64.Packing

/-!
# The numbers that doubles stand for

A finite double stands for a rational number (`HasValue`); the two zeros stand for the same one. The
comparisons of finite doubles are those of these numbers (`HasValue.le_iff`, `HasValue.beq_iff`).

Doubles are compared by exponent first and by significand second, which is right because the parts
are in normal form: with a larger exponent the leading bit of the significand is there, so that the
magnitude is larger whatever the significands are (`Parts.cmp_magnitude`).
-/

namespace Abacus.Binary64

open Float.Model (UnpackedFloat)

namespace Parts

/-- The rational number that a finite double stands for. -/
def value (p : Parts) : ℚ := if p.negative then -p.magnitude else p.magnitude

variable {p q : Parts}

theorem magnitude_nonneg (p : Parts) : 0 ≤ p.magnitude := by
  unfold magnitude
  positivity

theorem magnitude_pos (h : 0 < p.significand) : 0 < p.magnitude := by
  unfold magnitude
  positivity

theorem magnitude_eq_zero (h : p.significand = 0) : p.magnitude = 0 := by
  rw [magnitude, h, Nat.cast_zero, zero_mul]

theorem value_eq_zero (h : p.significand = 0) : p.value = 0 := by
  rw [value, magnitude_eq_zero h, neg_zero, ite_self]

theorem abs_value (p : Parts) : |p.value| = p.magnitude := by
  unfold value
  split
  · rw [abs_neg, abs_of_nonneg p.magnitude_nonneg]
  · rw [abs_of_nonneg p.magnitude_nonneg]

theorem value_of_nonneg (h : 0 ≤ p.value) : p.value = p.magnitude := by
  rw [← abs_value, abs_of_nonneg h]

theorem significand_pos (h : p.value ≠ 0) : 0 < p.significand :=
  Nat.pos_of_ne_zero fun hzero => h (value_eq_zero hzero)

theorem negative_of_value_pos (h : 0 < p.value) : p.negative = false := by
  rw [Bool.eq_false_iff]
  intro hneg
  have hmagnitude := p.magnitude_nonneg
  rw [value, if_pos hneg] at h
  linarith

/-! ### The order of magnitudes -/

theorem IsNormal.magnitude_lt_two_pow (hp : p.IsNormal) {k : ℤ} (h : p.exponent + 53 ≤ k) :
    p.magnitude < 2 ^ k := by
  have hlt : (p.significand : ℚ) < 2 ^ (53 : ℤ) := by exact_mod_cast hp.lt
  calc p.magnitude < 2 ^ (53 : ℤ) * 2 ^ p.exponent := by
        unfold magnitude
        gcongr
    _ = 2 ^ (p.exponent + 53) := by rw [add_comm, zpow_add₀ two_ne_zero]
    _ ≤ 2 ^ k := zpow_le_zpow_right₀ one_le_two h

theorem IsNormal.magnitude_lt_of_exponent_lt (hp : p.IsNormal) (hq : q.IsNormal)
    (h : p.exponent < q.exponent) : p.magnitude < q.magnitude := by
  have hmin := hp.minExponent_le
  have hfull : q.IsFull := ⟨hq.normal.resolve_right (by omega), hq.lt⟩
  exact (hp.magnitude_lt_two_pow (by omega)).trans_le hfull.magnitude_bounds.1

/-- **Magnitudes are compared by exponent first and by significand second.** -/
theorem cmp_magnitude (hp : p.IsNormal) (hq : q.IsNormal) :
    (compare p.exponent q.exponent).then (compare p.significand q.significand) =
      cmp p.magnitude q.magnitude := by
  rcases lt_trichotomy p.exponent q.exponent with h | h | h
  · rw [Int.compare_eq_lt.2 h, (cmp_eq_lt_iff _ _).2 (hp.magnitude_lt_of_exponent_lt hq h)]
    rfl
  · -- the exponents are the same, and the significands are left
    have hunit : (0 : ℚ) < 2 ^ q.exponent := by positivity
    have hmono : StrictMono fun m : ℕ => (m : ℚ) * 2 ^ q.exponent := fun m n hmn =>
      mul_lt_mul_of_pos_right (by exact_mod_cast hmn) hunit
    rw [h, Int.compare_eq_eq.2 rfl, magnitude, magnitude, h,
      hmono.cmp_map_eq p.significand q.significand, cmp_eq_compare]
    rfl
  · rw [Int.compare_eq_gt.2 h, (cmp_eq_gt_iff _ _).2 (hq.magnitude_lt_of_exponent_lt hp h)]
    rfl

/-- A finite double is a zero, or a number of either sign. -/
theorem unpacked_cases (p : Parts) :
    (∃ s, p.unpacked = .zero s ∧ p.value = 0) ∨
      (∃ h, p.unpacked = .finite .negative p.significand p.exponent h ∧
        p.value = -p.magnitude ∧ 0 < p.magnitude) ∨
      (∃ h, p.unpacked = .finite .positive p.significand p.exponent h ∧
        p.value = p.magnitude ∧ 0 < p.magnitude) := by
  rcases Nat.eq_zero_or_pos p.significand with hzero | hpos
  · exact .inl ⟨_, dif_neg (by omega), value_eq_zero hzero⟩
  · rw [unpacked_of_pos hpos, value]
    cases p.negative with
    | true => exact .inr (.inl ⟨hpos, rfl, rfl, magnitude_pos hpos⟩)
    | false => exact .inr (.inr ⟨hpos, rfl, rfl, magnitude_pos hpos⟩)

/-- **The comparison of doubles is that of the numbers they stand for.** -/
theorem compare_unpacked (hp : p.IsNormal) (hq : q.IsNormal) :
    p.unpacked.compare q.unpacked = some (cmp p.value q.value) := by
  have hmagnitude := cmp_magnitude hp hq
  have hlt : ∀ {a b : ℚ}, a < b → some Ordering.lt = some (cmp a b) := fun h => by
    rw [(cmp_eq_lt_iff _ _).2 h]
  have hgt : ∀ {a b : ℚ}, b < a → some Ordering.gt = some (cmp a b) := fun h => by
    rw [(cmp_eq_gt_iff _ _).2 h]
  obtain ⟨s, hp, hpv⟩ | ⟨_, hp, hpv, hp₀⟩ | ⟨_, hp, hpv, hp₀⟩ := p.unpacked_cases <;>
    obtain ⟨s, hq, hqv⟩ | ⟨_, hq, hqv, hq₀⟩ | ⟨_, hq, hqv, hq₀⟩ := q.unpacked_cases <;>
    rw [hp, hq, hpv, hqv] <;> simp only [UnpackedFloat.compare]
  · rw [cmp_self_eq_eq]
  · exact hgt (by linarith)
  · exact hlt hq₀
  · exact hlt (by linarith)
  · have hanti : StrictAnti fun a : ℚ => -a := fun _ _ h => neg_lt_neg h
    rw [hmagnitude, cmp_swap, ← hanti.cmp_map_eq]
  · exact hlt (by linarith)
  · exact hgt hp₀
  · exact hgt (by linarith)
  · rw [hmagnitude]

end Parts

/-! ### Values -/

/-- A double is finite and stands for a rational number. -/
def HasValue (x : Float) (a : ℚ) : Prop := ∃ p, parts? x = some p ∧ p.value = a

theorem hasValue_of_parts? {x : Float} {p : Parts} (h : parts? x = some p) : HasValue x p.value :=
  ⟨p, h, rfl⟩

theorem hasValue_of_pack {x : Float} {p : Parts} (hp : p.IsNormal)
    (hx : x.toBits.toBitVec = UnpackedFloat.pack .binary64 p.unpacked) : HasValue x p.value :=
  hasValue_of_parts? (parts?_of_pack hp hx)

theorem exists_hasValue {x : Float} (h : x.isFinite) : ∃ a, HasValue x a := by
  cases hx : parts? x with
  | some p => exact ⟨_, hasValue_of_parts? hx⟩
  | none =>
    change x.toModel.unpack.isFinite = true at h
    rcases unpack_eq_of_parts?_eq_none hx with hunpack | hunpack <;> rw [hunpack] at h <;> cases h

namespace HasValue

variable {x y : Float} {a b : ℚ}

theorem unique (h : HasValue x a) (h' : HasValue x b) : a = b := by
  obtain ⟨p, hp, rfl⟩ := h
  obtain ⟨q, hq, rfl⟩ := h'
  cases hp.symm.trans hq
  rfl

theorem compare_eq (hx : HasValue x a) (hy : HasValue y b) :
    x.toModel.unpack.compare y.toModel.unpack = some (cmp a b) := by
  obtain ⟨p, hp, rfl⟩ := hx
  obtain ⟨q, hq, rfl⟩ := hy
  rw [unpack_eq hp, unpack_eq hq]
  exact Parts.compare_unpacked (parts?_spec hp).1 (parts?_spec hq).1

theorem le_iff (hx : HasValue x a) (hy : HasValue y b) : x ≤ y ↔ a ≤ b := by
  have hle : x ≤ y ↔ (x.toModel.unpack.compare y.toModel.unpack).any (·.isLE) = true := by
    change decide ((x.toModel.unpack.compare y.toModel.unpack).any (·.isLE) = true) = true ↔ _
    rw [decide_eq_true_iff]
  rw [hle, hx.compare_eq hy, Option.any_some, ← not_lt, ← cmp_eq_gt_iff a b]
  cases cmp a b <;> simp

theorem beq_iff (hx : HasValue x a) (hy : HasValue y b) : (x == y) = true ↔ a = b := by
  change (x.toModel.unpack.compare y.toModel.unpack == some .eq) = true ↔ _
  rw [hx.compare_eq hy, ← cmp_eq_eq_iff a b]
  cases cmp a b <;> decide

theorem unpack_ne_infinity {s : UnpackedFloat.Sign} (hx : HasValue x a) :
    x.toModel.unpack ≠ .infinity s := by
  obtain ⟨p, hp, rfl⟩ := hx
  rw [unpack_eq hp]
  obtain ⟨_, hunpacked, -⟩ | ⟨_, hunpacked, -⟩ | ⟨_, hunpacked, -⟩ := p.unpacked_cases <;>
    rw [hunpacked] <;> rintro ⟨⟩

/-- Infinity is above all finite doubles. -/
theorem le_of_unpack_eq_infinity (hx : HasValue x a) (hy : y.toModel.unpack = .infinity .positive) :
    x ≤ y := by
  obtain ⟨p, hp, rfl⟩ := hx
  change decide ((x.toModel.unpack.compare y.toModel.unpack).any (·.isLE) = true) = true
  rw [hy, unpack_eq hp]
  obtain ⟨s, hunpacked, -⟩ | ⟨_, hunpacked, -⟩ | ⟨_, hunpacked, -⟩ := p.unpacked_cases <;>
    rw [hunpacked] <;> rfl

protected theorem abs (hx : HasValue x a) : HasValue x.abs |a| := by
  obtain ⟨p, hp, rfl⟩ := hx
  obtain ⟨hmin, hmax, hlt, hnormal⟩ := (parts?_spec hp).1
  let q : Parts := ⟨false, p.significand, p.exponent⟩
  have habs : p.unpacked.abs = q.unpacked := by
    unfold Parts.unpacked
    split <;> rfl
  have hvalue : q.value = |p.value| := p.abs_value.symm
  rw [← hvalue]
  refine hasValue_of_pack ⟨hmin, hmax, hlt, hnormal⟩ ?_
  rw [← habs, ← unpack_eq hp]
  rfl

end HasValue

theorem hasValue_zero : HasValue 0 0 :=
  ⟨⟨false, 0, minExponent⟩, by decide +kernel, Parts.value_eq_zero rfl⟩

/-- The largest integer of 64 bits is rounded up to a power of two. -/
theorem hasValue_ofInt_maxInt : HasValue (ofInt maxInt) (2 ^ 63) := by
  have hparts : parts? (ofInt maxInt) = some ⟨false, 2 ^ 52, 11⟩ := by decide +kernel
  refine ⟨_, hparts, ?_⟩
  norm_num [Parts.value, Parts.magnitude]

end Abacus.Binary64
