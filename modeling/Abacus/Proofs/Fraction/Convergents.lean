import Abacus.Fraction.Approximation
import Abacus.Proofs.Binary64.Remainders
import Abacus.Proofs.Fraction.Quotients

/-!
# Convergents of a double

A double is expanded step by step (`Convergents.Expands`). Two successive convergents `h / k` and
`h' / k'` satisfy `h * k' - h' * k = ±1` in every step, because one more partial quotient only turns
the sign of this determinant (`Convergents.IsSound.appended`). It makes the parts of each convergent
coprime, so that the fraction made of the last one has just these parts
(`Convergents.IsSound.make_eq_ok`).

That the denominators do not decrease rests on the partial quotients, which are one or more. This is
where doubles come in: what a step leaves over lies between zero and one, and the floor of its
reciprocal is one or more, or so large that the expansion ends (`partial_quotient_cases`).
Nothing is assumed about them.
-/

namespace Abacus.Fraction

open Binary64

/-- An integer that 64 bits hold. -/
def IsWord (n : ℤ) : Prop := minInt ≤ n ∧ n ≤ maxInt

theorem isWord_zero : IsWord 0 := ⟨by decide, by decide⟩

theorem isWord_one : IsWord 1 := ⟨by decide, by decide⟩

/-- A double between zero and one. -/
def IsRemainder (rest : Float) : Prop := ∃ b, HasValue rest b ∧ 0 ≤ b ∧ b ≤ 1

namespace Convergents

variable {c next : Convergents} {a : ℤ}

/-! ### One more partial quotient -/

/-- All that is computed for one more partial quotient fits into 64 bits. -/
structure Fits (c : Convergents) (a : ℤ) : Prop where
  numerator_mul : IsWord (a * c.numerator)
  numerator_add : IsWord (a * c.numerator + c.previousNumerator)
  denominator_mul : IsWord (a * c.denominator)
  denominator_add : IsWord (a * c.denominator + c.previousDenominator)

/-- The convergents with one more partial quotient. -/
def appended (c : Convergents) (a : ℤ) : Convergents :=
  ⟨a * c.numerator + c.previousNumerator, a * c.denominator + c.previousDenominator, c.numerator,
    c.denominator⟩

theorem extend?_eq_some_iff : c.extend? a = some next ↔ c.Fits a ∧ next = c.appended a := by
  simp only [extend?, Option.bind_eq_bind, Option.bind_eq_some_iff, word?_eq_some_iff,
    Option.some.injEq]
  constructor
  · rintro ⟨_, ⟨rfl, hn⟩, _, ⟨rfl, hn'⟩, _, ⟨rfl, hd⟩, _, ⟨rfl, hd'⟩, rfl⟩
    exact ⟨⟨hn, hn', hd, hd'⟩, rfl⟩
  · rintro ⟨⟨hn, hn', hd, hd'⟩, rfl⟩
    exact ⟨_, ⟨rfl, hn⟩, _, ⟨rfl, hn'⟩, _, ⟨rfl, hd⟩, _, ⟨rfl, hd'⟩, rfl⟩

/-- What holds of two successive convergents in every step. -/
structure IsSound (c : Convergents) : Prop where
  determinant :
    |c.numerator * c.previousDenominator - c.previousNumerator * c.denominator| = 1
  one_le : 1 ≤ c.denominator
  previous_nonneg : 0 ≤ c.previousDenominator
  previous_le : c.previousDenominator ≤ c.denominator
  numerator : IsWord c.numerator
  denominator : IsWord c.denominator
  previousNumerator : IsWord c.previousNumerator
  previousDenominator : IsWord c.previousDenominator

theorem isSound_start {whole : ℤ} (h : IsWord whole) : (start whole).IsSound where
  determinant := by simp [start]
  one_le := le_rfl
  previous_nonneg := le_rfl
  previous_le := zero_le_one
  numerator := h
  denominator := isWord_one
  previousNumerator := isWord_one
  previousDenominator := isWord_zero

/-- **One more partial quotient keeps the convergents sound.** -/
theorem IsSound.appended (h : c.IsSound) (ha : 1 ≤ a) (hfits : c.Fits a) :
    (c.appended a).IsSound where
  determinant := by
    -- the multiples of the latest convergent cancel
    have hturn : (a * c.numerator + c.previousNumerator) * c.denominator -
        c.numerator * (a * c.denominator + c.previousDenominator) =
          -(c.numerator * c.previousDenominator - c.previousNumerator * c.denominator) := by
      ring
    simp only [Convergents.appended]
    rw [hturn, abs_neg, h.determinant]
  one_le := by
    have hmul : 1 * 1 ≤ a * c.denominator := mul_le_mul ha h.one_le zero_le_one (by omega)
    have hprevious := h.previous_nonneg
    simp only [Convergents.appended]
    omega
  previous_nonneg := zero_le_one.trans h.one_le
  previous_le := by
    have hmul : 1 * c.denominator ≤ a * c.denominator :=
      mul_le_mul_of_nonneg_right ha (zero_le_one.trans h.one_le)
    have hprevious := h.previous_nonneg
    simp only [Convergents.appended]
    omega
  numerator := hfits.numerator_add
  denominator := hfits.denominator_add
  previousNumerator := h.numerator
  previousDenominator := h.denominator

/-! ### The fraction made of the last convergent -/

/-- The fraction made of the latest convergent, if it can be negated. -/
def toFraction? (c : Convergents) : Option Fraction := (make c.numerator c.denominator).toOption

theorem IsSound.coprime (h : c.IsSound) : c.numerator.natAbs.Coprime c.denominator.natAbs := by
  have hunit : IsUnit (c.numerator * c.previousDenominator - c.previousNumerator * c.denominator) :=
    Int.isUnit_iff_abs_eq.2 h.determinant
  -- a combination of the two parts is a unit, so that they have no divisor in common
  rw [← Int.isCoprime_iff_nat_coprime]
  obtain ⟨u, hu⟩ := hunit.exists_left_inv
  refine ⟨u * c.previousDenominator, -(u * c.previousNumerator), ?_⟩
  rw [← hu]
  ring

/-- **Nothing is reduced** when a fraction is made of a convergent. -/
theorem IsSound.make_eq_ok (h : c.IsSound) (hnegatable : c.numerator ≠ minInt) :
    ∃ q : Fraction, make c.numerator c.denominator = .ok q ∧ q.numerator = c.numerator ∧
      (q.denominator : ℤ) = c.denominator := by
  have hpos := h.one_le
  have hcoprime := h.coprime
  obtain ⟨d, hd⟩ := Int.eq_ofNat_of_zero_le (zero_le_one.trans hpos)
  rw [hd, Int.natAbs_natCast] at hcoprime
  let q : Fraction := ⟨c.numerator, d, by omega, hcoprime, h.numerator.1, h.numerator.2,
    hd ▸ h.denominator.2⟩
  have hparts : ofParts? c.numerator c.denominator = some q := by
    refine ofParts?_eq_some_iff.2 ⟨by omega, hnegatable, ?_⟩
    rw [toRat_eq_div, hd, Int.cast_natCast]
  have hmin : ¬ (c.numerator = minInt ∨ c.denominator = minInt) := by
    rintro (hn | hn)
    · exact hnegatable hn
    · rw [minInt] at hn
      omega
  refine ⟨q, ?_, rfl, hd.symm⟩
  rw [make, if_neg (by omega), if_neg hmin, hparts]

theorem IsSound.toFraction?_eq_none_iff (h : c.IsSound) :
    c.toFraction? = none ↔ c.numerator = minInt := by
  have hpos := h.one_le
  constructor
  · intro hnone
    by_contra hnegatable
    obtain ⟨q, hq, -, -⟩ := h.make_eq_ok hnegatable
    rw [toFraction?, hq] at hnone
    cases hnone
  · intro hmin
    rw [toFraction?, make, if_neg (by omega), if_pos (.inl hmin)]
    rfl

theorem IsSound.parts_of_toFraction? {q : Fraction} (h : c.IsSound) (hq : c.toFraction? = some q) :
    q.numerator = c.numerator ∧ (q.denominator : ℤ) = c.denominator := by
  have hnegatable : c.numerator ≠ minInt := by
    intro hmin
    rw [h.toFraction?_eq_none_iff.2 hmin] at hq
    cases hq
  obtain ⟨_, hmake, hparts⟩ := h.make_eq_ok hnegatable
  rw [toFraction?, hmake] at hq
  cases hq
  exact hparts

/-! ### Partial quotients -/

/-- Unless nothing is left over, the next partial quotient is a positive integer, or the reciprocal
is infinite. -/
theorem partial_quotient_cases {rest : Float} (h : IsRemainder rest) (hne : ¬ HasValue rest 0) :
    (∃ a : ℤ, 1 ≤ a ∧ HasValue (Binary64.floor (1 / rest)) a ∧
      IsRemainder (1 / rest - Binary64.floor (1 / rest))) ∨
        (1 / rest).toModel.unpack = .infinity .positive := by
  obtain ⟨b, hb, hnonneg, hle⟩ := h
  have hpos : 0 < b := by
    refine lt_of_le_of_ne hnonneg ?_
    rintro rfl
    exact hne hb
  refine (hb.one_div hpos hle).imp_left ?_
  rintro ⟨v, hv, hone⟩
  exact ⟨⌊v⌋, Int.le_floor.2 (by exact_mod_cast hone), hv.floor, hv.exists_sub_floor⟩

/-- A step is tried if something is left over and the convergents are not near enough. -/
theorem continues_iff {x tolerance rest : Float} (h : IsRemainder rest) :
    (rest != 0 && (c.toFloat - x).abs > tolerance) = true ↔
      ¬ HasValue rest 0 ∧ tolerance < (c.toFloat - x).abs := by
  obtain ⟨b, hb, -⟩ := h
  have hzero : (rest == 0) = true ↔ HasValue rest 0 := by
    rw [hb.beq_iff hasValue_zero]
    exact ⟨fun h => h ▸ hb, hb.unique⟩
  rw [Bool.and_eq_true_iff, decide_eq_true_iff, bne, Bool.not_eq_true', ← hzero,
    Bool.not_eq_true]

/-- A partial quotient with which everything fits is below the limit on doubles. -/
theorem Fits.lt_two_pow (h : c.Fits a) (hsound : c.IsSound) (hone : 1 ≤ a) : a < 2 ^ 63 := by
  have hmul : a * 1 ≤ a * c.denominator :=
    mul_le_mul_of_nonneg_left hsound.one_le (zero_le_one.trans hone)
  have hmax := h.denominator_mul.2
  rw [maxInt] at hmax
  omega

/-- A double that stands for a partial quotient is appended without loss. -/
theorem extend?_truncated_eq_some_iff {α : Type} {f : Convergents → α} {step : α} {term : Float}
    (hsound : c.IsSound) (hone : 1 ≤ a) (hterm : HasValue term a) :
    (if term ≥ Binary64.ofInt maxInt then none else (c.extend? (truncated term)).map f) =
      some step ↔ c.Fits a ∧ f (c.appended a) = step := by
  have hlimit : term ≥ Binary64.ofInt maxInt ↔ 2 ^ 63 ≤ a := by
    rw [ge_iff_le, hasValue_ofInt_maxInt.le_iff hterm]
    exact_mod_cast Iff.rfl
  split
  case isTrue hlarge =>
    refine iff_of_false (Option.some_ne_none _).symm ?_
    rintro ⟨hfits, -⟩
    exact (hlimit.1 hlarge).not_gt (hfits.lt_two_pow hsound hone)
  case isFalse hsmall =>
    have hlt := not_le.1 (mt hlimit.2 hsmall)
    rw [hterm.truncated (by rw [minInt]; omega) (by rw [maxInt]; omega), Option.map_eq_some_iff]
    constructor
    · rintro ⟨_, hextend, hstep⟩
      obtain ⟨hfits, rfl⟩ := extend?_eq_some_iff.1 hextend
      exact ⟨hfits, hstep⟩
    · rintro ⟨hfits, hstep⟩
      exact ⟨_, extend?_eq_some_iff.2 ⟨hfits, rfl⟩, hstep⟩

/-- **A step appends the next partial quotient exactly**, if all that it computes fits. -/
theorem next?_eq_some_iff {x tolerance rest rest' : Float} (hsound : c.IsSound)
    (hrest : IsRemainder rest) :
    c.next? x tolerance rest = some (next, rest') ↔
      (¬ HasValue rest 0 ∧ tolerance < (c.toFloat - x).abs) ∧
        (∃ a : ℤ, 1 ≤ a ∧ HasValue (Binary64.floor (1 / rest)) a ∧ c.Fits a ∧
          next = c.appended a) ∧ rest' = 1 / rest - Binary64.floor (1 / rest) := by
  unfold next?
  dsimp only
  rw [← continues_iff hrest]
  split
  case isFalse hstop => simp [hstop]
  case isTrue hcontinues =>
    have hne := ((continues_iff hrest).1 hcontinues).1
    obtain ⟨a, hone, ha, -⟩ | hinfinite := partial_quotient_cases hrest hne
    · rw [extend?_truncated_eq_some_iff hsound hone ha, Prod.mk.injEq]
      constructor
      · rintro ⟨hfits, rfl, rfl⟩
        exact ⟨hcontinues, ⟨a, hone, ha, hfits, rfl⟩, rfl⟩
      · rintro ⟨-, ⟨a', -, ha', hfits, rfl⟩, rfl⟩
        have hunique : a' = a := by exact_mod_cast ha'.unique ha
        exact ⟨hunique ▸ hfits, by rw [hunique], rfl⟩
    · -- an infinite reciprocal is not below the limit, and it is no integer
      rw [floor_of_unpack_eq_infinity hinfinite,
        if_pos (hasValue_ofInt_maxInt.le_of_unpack_eq_infinity hinfinite)]
      refine iff_of_false (Option.some_ne_none _).symm ?_
      rintro ⟨-, ⟨a', -, ha', -⟩, -⟩
      exact ha'.unpack_ne_infinity hinfinite

/-- **A partial quotient that does not fit ends the expansion.** -/
theorem next?_eq_none_of_not_fits {x tolerance rest : Float} (hsound : c.IsSound)
    (hrest : IsRemainder rest) (ha : HasValue (Binary64.floor (1 / rest)) a) (h : ¬ c.Fits a) :
    c.next? x tolerance rest = none := by
  rw [Option.eq_none_iff_forall_ne_some]
  rintro ⟨next, rest'⟩ hnext
  obtain ⟨-, ⟨a', -, ha', hfits, -⟩, -⟩ := (next?_eq_some_iff hsound hrest).1 hnext
  have heq : a = a' := by exact_mod_cast ha.unique ha'
  exact h (heq ▸ hfits)

/-- A step leaves sound convergents, whose denominator is not smaller, and a number between zero and
one. -/
theorem IsSound.of_next? {x tolerance rest rest' : Float} (hsound : c.IsSound)
    (hrest : IsRemainder rest) (h : c.next? x tolerance rest = some (next, rest')) :
    next.IsSound ∧ IsRemainder rest' ∧ c.denominator ≤ next.denominator := by
  obtain ⟨⟨hne, -⟩, ⟨a, hone, ha, hfits, rfl⟩, rfl⟩ := (next?_eq_some_iff hsound hrest).1 h
  have happended := hsound.appended hone hfits
  refine ⟨happended, ?_, happended.previous_le⟩
  obtain ⟨-, -, -, hrest'⟩ | hinfinite := partial_quotient_cases hrest hne
  · exact hrest'
  · rw [floor_of_unpack_eq_infinity hinfinite] at ha
    exact absurd hinfinite ha.unpack_ne_infinity

/-! ### A whole expansion -/

/-- The convergents that the expansion of a double reaches, with the number of terms that they take
and with what they leave over. -/
inductive Expands (x tolerance : Float) : (terms : ℕ) → Convergents → (rest : Float) → Prop where
  | start (hfinite : x.isFinite) (hlimit : ¬ x.abs ≥ Binary64.ofInt maxInt) :
      Expands x tolerance 1 (.start (truncated (Binary64.floor x))) (x - Binary64.floor x)
  | next {n : ℕ} {c next : Convergents} {rest rest' : Float} (h : Expands x tolerance n c rest)
      (hnext : c.next? x tolerance rest = some (next, rest')) :
      Expands x tolerance (n + 1) next rest'

/-- An expansion ends if it has used up its terms, or if there is no further convergent. -/
def Ends (x tolerance : Float) (terms : ℕ) (c : Convergents) : Prop :=
  ∃ n rest, Expands x tolerance n c rest ∧ n ≤ max 1 terms ∧
    (n = max 1 terms ∨ c.next? x tolerance rest = none)

/-- Doubles that are expanded have a whole part of 64 bits. -/
theorem exists_whole {x : Float} (hfinite : x.isFinite) (hlimit : ¬ x.abs ≥ Binary64.ofInt maxInt) :
    ∃ v, HasValue x v ∧ |v| < 2 ^ 63 ∧ IsWord ⌊v⌋ ∧ truncated (Binary64.floor x) = ⌊v⌋ := by
  obtain ⟨v, hv⟩ := exists_hasValue hfinite
  have hlt : |v| < 2 ^ 63 := not_le.1 (mt (hasValue_ofInt_maxInt.le_iff hv.abs).2 hlimit)
  obtain ⟨hlower, hupper⟩ := abs_lt.1 hlt
  have hlower : -2 ^ 63 ≤ ⌊v⌋ := Int.le_floor.2 (by push_cast; exact hlower.le)
  have hupper : ⌊v⌋ < 2 ^ 63 := Int.floor_lt.2 (by push_cast; exact hupper)
  have hword : IsWord ⌊v⌋ := ⟨by rw [minInt]; omega, by rw [maxInt]; omega⟩
  exact ⟨v, hv, hlt, hword, hv.floor.truncated hword.1 hword.2⟩

/-- **Every step of an expansion is sound.** -/
theorem Expands.sound {x tolerance rest : Float} {n : ℕ} (h : Expands x tolerance n c rest) :
    c.IsSound ∧ IsRemainder rest := by
  -- both at once: what is left over makes the partial quotient positive, which the convergents need
  induction h with
  | start hfinite hlimit =>
    obtain ⟨v, hv, -, hword, htruncated⟩ := exists_whole hfinite hlimit
    rw [htruncated]
    exact ⟨isSound_start hword, hv.exists_sub_floor⟩
  | next _ hnext ih =>
    obtain ⟨hsound, hrest⟩ := ih
    obtain ⟨hsound', hrest', -⟩ := hsound.of_next? hrest hnext
    exact ⟨hsound', hrest'⟩

/-- What holds of every pair of convergents that an expansion reaches. -/
structure Invariant (x tolerance : Float) (c : Convergents) (rest : Float) : Prop where
  sound : c.IsSound
  remainder : IsRemainder rest
  /-- A step appends the next partial quotient exactly, and nothing that it computes wraps. It is
  made unless nothing is left over or the latest convergent is near enough. -/
  step_iff : ∀ next rest', c.next? x tolerance rest = some (next, rest') ↔
    (¬ HasValue rest 0 ∧ tolerance < (c.toFloat - x).abs) ∧
      (∃ a : ℤ, 1 ≤ a ∧ HasValue (Binary64.floor (1 / rest)) a ∧ c.Fits a ∧ next = c.appended a) ∧
        rest' = 1 / rest - Binary64.floor (1 / rest)
  denominator_le : ∀ next rest', c.next? x tolerance rest = some (next, rest') →
    c.denominator ≤ next.denominator
  /-- No step is made if something would wrap. -/
  kept : ∀ a : ℤ, HasValue (Binary64.floor (1 / rest)) a → ¬ c.Fits a →
    c.next? x tolerance rest = none

theorem Expands.invariant {x tolerance rest : Float} {n : ℕ} (h : Expands x tolerance n c rest) :
    c.Invariant x tolerance rest := by
  obtain ⟨hsound, hrest⟩ := h.sound
  exact ⟨hsound, hrest, fun _ _ => next?_eq_some_iff hsound hrest,
    fun _ _ hnext => (hsound.of_next? hrest hnext).2.2,
    fun _ => next?_eq_none_of_not_fits hsound hrest⟩

/-- Whatever has been expanded, the result is that of the terms that are left. -/
theorem Expands.near?_eq {x tolerance rest : Float} {n terms : ℕ}
    (h : Expands x tolerance n c rest) (hle : n ≤ max 1 terms) :
    near? x tolerance terms = (expand x tolerance (max 1 terms - n) c rest).toFraction? := by
  induction h with
  | start hfinite hlimit =>
    have hguard : ¬ (!x.isFinite || x.abs ≥ Binary64.ofInt maxInt) = true := by
      simp [hfinite, hlimit]
    rw [near?, if_neg hguard, show max 1 terms - 1 = terms - 1 by omega]
    rfl
  | @next n c next rest rest' _ hnext ih =>
    -- the step that has been made is the first of those that were left
    obtain ⟨k, hk⟩ : ∃ k, max 1 terms - n = k + 1 := ⟨max 1 terms - n - 1, by omega⟩
    rw [ih (by omega), hk, expand, hnext, show max 1 terms - (n + 1) = k by omega]

theorem Ends.near?_eq {x tolerance : Float} {terms : ℕ} (h : Ends x tolerance terms c) :
    near? x tolerance terms = c.toFraction? := by
  obtain ⟨n, rest, hexpands, hle, hend⟩ := h
  rw [hexpands.near?_eq hle]
  rcases hend with heq | hnone
  · rw [heq, Nat.sub_self, expand]
  · cases max 1 terms - n with
    | zero => rw [expand]
    | succ k => rw [expand, hnone]

/-- An expansion that has not used up its terms can be continued to its end. -/
theorem Expands.exists_ends {x tolerance rest : Float} {n terms : ℕ}
    (h : Expands x tolerance n c rest) (hle : n ≤ max 1 terms) :
    ∃ last, Ends x tolerance terms last := by
  -- by induction on the terms that are left
  obtain ⟨k, hk⟩ := Nat.exists_eq_add_of_le hle
  induction k generalizing n c rest with
  | zero => exact ⟨c, n, rest, h, hle, .inl (by omega)⟩
  | succ k ih =>
    cases hnext : c.next? x tolerance rest with
    | none => exact ⟨c, n, rest, h, hle, .inr hnext⟩
    | some step =>
      obtain ⟨next, rest'⟩ := step
      exact ih (.next h hnext) (by omega) (by omega)

end Convergents

open Convergents in
/-- **The expansion of a finite double keeps true convergents, and its result is the last of them.**
Below `2 ^ 63` the expansion starts with the whole part of the double and comes to an end, after at
most as many terms as it may take. The invariant holds of every pair that it reaches. The parts of
the result are those of the pair at the end, unless the numerator has no negative. -/
theorem near?_convergents {x : Float} (hx : x.isFinite) (tolerance : Float) (terms : ℕ) :
    (∃ v, HasValue x v ∧
      (2 ^ 63 ≤ |v| ∧ near? x tolerance terms = none ∨
        |v| < 2 ^ 63 ∧ Expands x tolerance 1 (.start ⌊v⌋) (x - Binary64.floor x) ∧
          ∃ c, Ends x tolerance terms c)) ∧
    (∀ n c rest, Expands x tolerance n c rest → c.Invariant x tolerance rest) ∧
    ∀ c, Ends x tolerance terms c →
      (near? x tolerance terms = none ↔ c.numerator = minInt) ∧
        ∀ q, near? x tolerance terms = some q →
          q.numerator = c.numerator ∧ (q.denominator : ℤ) = c.denominator := by
  refine ⟨?_, fun n c rest h => h.invariant, fun c hends => ?_⟩
  · by_cases hlimit : x.abs ≥ Binary64.ofInt maxInt
    · obtain ⟨v, hv⟩ := exists_hasValue hx
      have hnone : near? x tolerance terms = none := by
        rw [near?, if_pos (by simp [hlimit])]
      exact ⟨v, hv, .inl ⟨(hasValue_ofInt_maxInt.le_iff hv.abs).1 hlimit, hnone⟩⟩
    · obtain ⟨v, hv, hlt, -, htruncated⟩ := exists_whole hx hlimit
      have hstart : Expands x tolerance 1 _ _ := .start hx hlimit
      rw [htruncated] at hstart
      exact ⟨v, hv, .inr ⟨hlt, hstart, hstart.exists_ends (le_max_left 1 terms)⟩⟩
  · obtain ⟨n, rest, hexpands, -, -⟩ := id hends
    have hsound := hexpands.sound.1
    rw [hends.near?_eq]
    exact ⟨hsound.toFraction?_eq_none_iff, fun q => hsound.parts_of_toFraction?⟩

open Convergents in
/-- Four terms of `π` end with `355 / 113`. -/
theorem near?_convergents_pi :
    (3.141592653589793 : Float).isFinite ∧
      ∃ c, Ends 3.141592653589793 1e-12 4 c ∧ c.numerator = 355 ∧ c.denominator = 113 := by
  have hfinite : (3.141592653589793 : Float).isFinite := by decide +kernel
  have hnear : (near? 3.141592653589793 1e-12 4).map (fun q => (q.numerator, q.denominator)) =
      some (355, 113) := by decide +kernel
  obtain ⟨q, hq, hparts⟩ := Option.map_eq_some_iff.1 hnear
  obtain ⟨⟨v, hv, hlarge | hsmall⟩, -, hlast⟩ := near?_convergents hfinite 1e-12 4
  · rw [hq] at hlarge
    cases hlarge.2
  · obtain ⟨-, -, c, hends⟩ := hsmall
    obtain ⟨hnumerator, hdenominator⟩ := (hlast c hends).2 q hq
    obtain ⟨hn, hd⟩ : q.numerator = 355 ∧ q.denominator = 113 := Prod.mk.inj hparts
    exact ⟨hfinite, c, hends, hnumerator ▸ hn, hdenominator ▸ congrArg Nat.cast hd⟩

end Abacus.Fraction
