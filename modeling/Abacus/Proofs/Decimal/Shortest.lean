import Abacus.Decimal.Numeral
import Abacus.Proofs.Binary64.Rounding

/-!
# The shortest decimal names its double

The shortest decimal of a double lies in the interval of what is rounded to the double
(`shortest_spec`), so that it is read as that double (`toDouble_eq_of_covers`).

The search tries grids of more and more digits and takes a grid point next to the value. It ends
because the grid with seventeen digits is finer than the interval, if the magnitude that the search
starts from is not too large. The magnitude is estimated from binary lengths, and the estimate is
good enough because the decimal logarithm of two lies between `59 / 196` and `28 / 93`.
-/

namespace Abacus.Decimal

open Binary64

/-! ### Powers of two and of ten -/

theorem tenPow_pos (e : ℤ) : 0 < tenPow e := Nat.pow_pos (by decide)

theorem tenPow_eq (e : ℤ) : (tenPow e : ℚ) = 10 ^ e * tenPow (-e) := by
  rcases le_total 0 e with he | he
  · obtain ⟨k, rfl⟩ := Int.eq_ofNat_of_zero_le he
    simp [tenPow]
  · obtain ⟨k, hk⟩ := Int.eq_ofNat_of_zero_le (show 0 ≤ -e by omega)
    obtain rfl : e = -(k : ℤ) := by omega
    simp [tenPow]

theorem zpow_le_zpow_of_nonpos {a b : ℚ} {j : ℤ} (hj : j ≤ 0) (ha : 0 < a) (h : a ≤ b) :
    b ^ j ≤ a ^ j := by
  obtain ⟨k, hk⟩ := Int.eq_ofNat_of_zero_le (show 0 ≤ -j by omega)
  obtain rfl : j = -(k : ℤ) := by omega
  rw [zpow_neg, zpow_neg]
  exact inv_anti₀ (by positivity) (zpow_le_zpow_left₀ (by positivity) ha.le h)

/-- An upper bound by a power of ten, from a comparison of `2 ^ b` with `10 ^ a`. -/
theorem two_zpow_le_of_pow {a b : ℕ} {j s : ℤ} (hb : b ≠ 0)
    (h : ((2 : ℚ) ^ b) ^ j ≤ (10 ^ a) ^ j) (hs : a * j ≤ b * s) : (2 : ℚ) ^ j ≤ 10 ^ s := by
  have hpow : ((2 : ℚ) ^ j) ^ b ≤ (10 ^ s) ^ b := by
    calc ((2 : ℚ) ^ j) ^ b = (2 ^ b) ^ j := by
          rw [← zpow_natCast, ← zpow_natCast, ← zpow_mul, ← zpow_mul, mul_comm]
      _ ≤ (10 ^ a) ^ j := h
      _ = 10 ^ (a * j) := by rw [← zpow_natCast, ← zpow_mul]
      _ ≤ 10 ^ (b * s) := zpow_le_zpow_right₀ (by norm_num) hs
      _ = (10 ^ s) ^ b := by rw [← zpow_natCast, ← zpow_mul, mul_comm]
  exact le_of_pow_le_pow_left₀ hb (by positivity) hpow

/-- A lower bound by a power of ten, from a comparison of `10 ^ a` with `2 ^ b`. -/
theorem ten_zpow_le_of_pow {a b : ℕ} {j s : ℤ} (hb : b ≠ 0)
    (h : ((10 : ℚ) ^ a) ^ j ≤ (2 ^ b) ^ j) (hs : b * s ≤ a * j) : (10 : ℚ) ^ s ≤ 2 ^ j := by
  have hpow : ((10 : ℚ) ^ s) ^ b ≤ (2 ^ j) ^ b := by
    calc ((10 : ℚ) ^ s) ^ b = 10 ^ (b * s) := by rw [← zpow_natCast, ← zpow_mul, mul_comm]
      _ ≤ 10 ^ (a * j) := zpow_le_zpow_right₀ (by norm_num) hs
      _ = (10 ^ a) ^ j := by rw [← zpow_natCast, ← zpow_mul]
      _ ≤ (2 ^ b) ^ j := h
      _ = (2 ^ j) ^ b := by
          rw [← zpow_natCast, ← zpow_natCast, ← zpow_mul, ← zpow_mul, mul_comm]
  exact le_of_pow_le_pow_left₀ hb (by positivity) hpow

/-- The decimal logarithm of two is less than `28 / 93`, and more than `59 / 196`. -/
theorem two_zpow_le_ten_zpow {j s : ℤ} (hpos : 28 * j ≤ 93 * s) (hneg : 59 * j ≤ 196 * s) :
    (2 : ℚ) ^ j ≤ 10 ^ s := by
  rcases le_total 0 j with hj | hj
  · have hpow : ((2 : ℚ) ^ 93) ^ j ≤ (10 ^ 28) ^ j :=
      zpow_le_zpow_left₀ hj (by norm_num) (by norm_num)
    exact two_zpow_le_of_pow (by decide) hpow (by exact_mod_cast hpos)
  · have hpow : ((2 : ℚ) ^ 196) ^ j ≤ (10 ^ 59) ^ j :=
      zpow_le_zpow_of_nonpos hj (by norm_num) (by norm_num)
    exact two_zpow_le_of_pow (by decide) hpow (by exact_mod_cast hneg)

theorem ten_zpow_le_two_zpow {j s : ℤ} (hpos : 196 * s ≤ 59 * j) (hneg : 93 * s ≤ 28 * j) :
    (10 : ℚ) ^ s ≤ 2 ^ j := by
  rcases le_total 0 j with hj | hj
  · have hpow : ((10 : ℚ) ^ 59) ^ j ≤ (2 ^ 196) ^ j :=
      zpow_le_zpow_left₀ hj (by norm_num) (by norm_num)
    exact ten_zpow_le_of_pow (by decide) hpow (by exact_mod_cast hpos)
  · have hpow : ((10 : ℚ) ^ 28) ^ j ≤ (2 ^ 93) ^ j :=
      zpow_le_zpow_of_nonpos hj (by norm_num) (by norm_num)
    exact ten_zpow_le_of_pow (by decide) hpow (by exact_mod_cast hneg)

/-! ### Magnitude -/

theorem belowPower_iff {n d : ℕ} (hd : 0 < d) (e : ℤ) :
    belowPower n d e ↔ (n : ℚ) / d < 10 ^ e := by
  have hd' : (0 : ℚ) < d := by exact_mod_cast hd
  have hpos : (0 : ℚ) < tenPow (-e) := by exact_mod_cast tenPow_pos _
  rw [belowPower, decide_eq_true_eq, div_lt_iff₀ hd', ← Nat.cast_lt (α := ℚ)]
  push_cast
  rw [tenPow_eq e, ← mul_assoc, mul_lt_mul_iff_left₀ hpos, mul_comm (d : ℚ)]

/-- The magnitude is exact if the binary lengths do not differ too much for its estimate. -/
theorem magnitude_spec {n d : ℕ} (hn : 0 < n) (hd : 0 < d)
    (hrange : |(n.log2 : ℤ) - d.log2| ≤ 10000) :
    (10 : ℚ) ^ (magnitude n d - 1) ≤ n / d ∧ (n : ℚ) / d < 10 ^ magnitude n d := by
  obtain ⟨hlow, hhigh⟩ := div_bounds hn hd
  have habs := abs_le.1 hrange
  let t : ℤ := ((n.log2 : ℤ) - d.log2 - 1) * 30103 / 100000
  have ht : t = ((n.log2 : ℤ) - d.log2 - 1) * 30103 / 100000 := rfl
  have hlower : (10 : ℚ) ^ (t - 1) ≤ n / d :=
    (ten_zpow_le_two_zpow (by omega) (by omega)).trans hlow.le
  have hupper : (n : ℚ) / d < 10 ^ (t + 3) :=
    hhigh.trans_le (two_zpow_le_ten_zpow (by omega) (by omega))
  have hdef : magnitude n d =
      if belowPower n d t then t
      else if belowPower n d (t + 1) then t + 1
      else if belowPower n d (t + 2) then t + 2
      else t + 3 := rfl
  rw [hdef]
  simp only [belowPower_iff hd]
  split
  · next h => exact ⟨hlower, h⟩
  · next h₀ =>
    split
    · next h =>
      refine ⟨?_, h⟩
      rw [add_sub_cancel_right]
      exact not_lt.1 h₀
    · next h₁ =>
      split
      · next h =>
        refine ⟨?_, h⟩
        rw [show t + 2 - 1 = t + 1 by ring]
        exact not_lt.1 h₁
      · next h₂ =>
        refine ⟨?_, hupper⟩
        rw [show t + 3 - 1 = t + 2 by ring]
        exact not_lt.1 h₂

/-! ### Intervals -/

/-- A natural shifted by a power of two, as a quotient. -/
theorem shift_div (k : ℕ) (q : ℤ) :
    ((k <<< q.toNat : ℕ) : ℚ) / ((1 <<< (-q).toNat : ℕ) : ℚ) = k * 2 ^ q := by
  rcases le_total 0 q with hq | hq
  · obtain ⟨j, rfl⟩ := Int.eq_ofNat_of_zero_le hq
    simp [Nat.shiftLeft_eq]
  · obtain ⟨j, hj⟩ := Int.eq_ofNat_of_zero_le (show 0 ≤ -q by omega)
    obtain rfl : q = -(j : ℤ) := by omega
    simp [Nat.shiftLeft_eq, div_eq_mul_inv]

namespace Interval

variable {p : Parts}

theorem denominator_pos (p : Parts) : 0 < (ofParts p).denominator := by
  simp [ofParts, Nat.shiftLeft_eq]

/-- The ends of an interval and the double in it. -/
theorem ofParts_spec (hp : 0 < p.significand) :
    ((ofParts p).lower : ℚ) / (ofParts p).denominator =
        (p.significand - p.lowerGap) * 2 ^ p.exponent ∧
      ((ofParts p).value : ℚ) / (ofParts p).denominator = p.significand * 2 ^ p.exponent ∧
      ((ofParts p).upper : ℚ) / (ofParts p).denominator =
        (p.significand + 1 / 2) * 2 ^ p.exponent := by
  have hquarter : (2 : ℚ) ^ p.exponent = 4 * 2 ^ (p.exponent - 2) := by
    rw [zpow_sub₀ two_ne_zero]
    norm_num
    ring
  simp only [ofParts, shift_div]
  rw [hquarter]
  refine ⟨?_, ?_, ?_⟩
  · rw [Nat.cast_sub (by split <;> omega)]
    unfold Parts.lowerGap
    simp only [show 1 <<< 52 = 2 ^ 52 by decide]
    split
    · push_cast; ring
    · push_cast; ring
  · push_cast; ring
  · push_cast; ring

theorem contains_iff (hp : 0 < p.significand) (k : ℕ) (e : ℤ) :
    (ofParts p).contains k e ↔ p.Covers (k * 10 ^ e) := by
  obtain ⟨hlower, -, hupper⟩ := ofParts_spec hp
  have hclosed : (ofParts p).closed = (p.significand % 2 == 0) := rfl
  have hd : (0 : ℚ) < (ofParts p).denominator := by exact_mod_cast denominator_pos p
  have hs : (0 : ℚ) < tenPow (-e) := by exact_mod_cast tenPow_pos _
  have ha : ((k * tenPow e * (ofParts p).denominator : ℕ) : ℚ) =
      k * 10 ^ e * (ofParts p).denominator * tenPow (-e) := by
    push_cast
    rw [tenPow_eq e]
    ring
  -- the comparisons of naturals are those with the ends of the interval
  have hle : ∀ b : ℕ, b * tenPow (-e) ≤ k * tenPow e * (ofParts p).denominator ↔
      (b : ℚ) / (ofParts p).denominator ≤ k * 10 ^ e := by
    intro b
    rw [div_le_iff₀ hd, ← Nat.cast_le (α := ℚ), ha, Nat.cast_mul, mul_le_mul_iff_left₀ hs]
  have hge : ∀ b : ℕ, k * tenPow e * (ofParts p).denominator ≤ b * tenPow (-e) ↔
      k * 10 ^ e ≤ (b : ℚ) / (ofParts p).denominator := by
    intro b
    rw [le_div_iff₀ hd, ← Nat.cast_le (α := ℚ), ha, Nat.cast_mul, mul_le_mul_iff_left₀ hs]
  unfold contains
  rw [hclosed]
  by_cases heven : p.significand % 2 = 0
  · -- the ends count
    have hodd : p.significand % 2 ≠ 1 := by omega
    simp only [heven, beq_self_eq_true, if_true, Bool.and_eq_true, decide_eq_true_eq, hle, hge,
      hlower, hupper]
    exact ⟨fun ⟨h₁, h₂⟩ => ⟨h₁, h₂, fun h => absurd h hodd⟩, fun h => ⟨h.lower_le, h.le_upper⟩⟩
  · have hodd : p.significand % 2 = 1 := by omega
    simp only [hodd, Nat.reduceBEq, if_neg Bool.false_ne_true, Bool.and_eq_true,
      decide_eq_true_eq, ← not_le, hle, hge, hlower, hupper]
    simp only [not_le]
    exact ⟨fun ⟨h₁, h₂⟩ => ⟨h₁.le, h₂.le, fun _ => ⟨h₁, h₂⟩⟩, fun h => h.odd hodd⟩

/-- A hit on a grid lies in the interval, and it is the grid point below the value or the next one.
-/
theorem onGrid?_spec {i : Interval} {e : ℤ} {k : ℕ} (h : i.onGrid? e = some k) :
    i.contains k e ∧ k ≤ i.value * tenPow (-e) / (i.denominator * tenPow e) + 1 := by
  simp only [onGrid?] at h
  generalize i.value * tenPow (-e) / (i.denominator * tenPow e) = q at *
  split at h
  · next h₁ h₂ =>
    cases h
    split
    · exact ⟨h₁, Nat.le_succ _⟩
    · exact ⟨h₂, le_rfl⟩
  · next h₁ _ =>
    cases h
    exact ⟨h₁, Nat.le_succ _⟩
  · next _ h₂ =>
    cases h
    exact ⟨h₂, le_rfl⟩
  · cases h

/-- The grid point below the value. -/
theorem floor_spec (hp : 0 < p.significand) (e : ℤ) :
    let k := (ofParts p).value * tenPow (-e) / ((ofParts p).denominator * tenPow e)
    (k : ℚ) * 10 ^ e ≤ p.significand * 2 ^ p.exponent ∧
      p.significand * 2 ^ p.exponent < ((k : ℚ) + 1) * 10 ^ e := by
  intro k
  obtain ⟨-, hvalue, -⟩ := ofParts_spec hp
  have hd : (0 : ℚ) < (ofParts p).denominator := by exact_mod_cast denominator_pos p
  have hs : (0 : ℚ) < tenPow (-e) := by exact_mod_cast tenPow_pos _
  have hb : 0 < (ofParts p).denominator * tenPow e := Nat.mul_pos (denominator_pos p) (tenPow_pos e)
  have hcast : ∀ m : ℕ, ((m * ((ofParts p).denominator * tenPow e) : ℕ) : ℚ) =
      m * 10 ^ e * (ofParts p).denominator * tenPow (-e) := by
    intro m
    push_cast
    rw [tenPow_eq e]
    ring
  have hlow : k * ((ofParts p).denominator * tenPow e) ≤ (ofParts p).value * tenPow (-e) :=
    Nat.div_mul_le_self _ _
  have hhigh : (ofParts p).value * tenPow (-e) <
      (k + 1) * ((ofParts p).denominator * tenPow e) := by
    rw [Nat.add_mul, Nat.one_mul]
    exact Nat.lt_div_mul_add hb
  rw [← Nat.cast_le (α := ℚ), hcast, Nat.cast_mul] at hlow
  rw [← Nat.cast_lt (α := ℚ), hcast, Nat.cast_mul] at hhigh
  push_cast at hhigh
  rw [← hvalue, le_div_iff₀ hd, div_lt_iff₀ hd]
  exact ⟨le_of_mul_le_mul_right hlow hs, lt_of_mul_lt_mul_right hhigh hs.le⟩

/-- A grid that is finer than the interval hits it next to the value. -/
theorem onGrid?_isSome (hp : 0 < p.significand) {e : ℤ}
    (hgrid : (10 : ℚ) ^ e < (p.lowerGap + 1 / 2) * 2 ^ p.exponent) :
    ((ofParts p).onGrid? e).isSome := by
  obtain ⟨hbelow, habove⟩ := floor_spec hp e
  unfold onGrid?
  simp only
  generalize (ofParts p).value * tenPow (-e) / ((ofParts p).denominator * tenPow e) = k at *
  have hu : (0 : ℚ) < 2 ^ p.exponent := by positivity
  -- one of the two grid points around the value is not too far away
  have hhit : (ofParts p).contains k e ∨ (ofParts p).contains (k + 1) e := by
    rw [contains_iff hp, contains_iff hp]
    have hgap : 0 ≤ p.lowerGap := by unfold Parts.lowerGap; split <;> norm_num
    rcases lt_or_ge ((p.significand - p.lowerGap) * 2 ^ p.exponent) ((k : ℚ) * 10 ^ e) with h | h
    · refine .inl ⟨h.le, ?_, fun _ => ⟨h, ?_⟩⟩ <;> nlinarith
    · have hupper : (((k + 1 : ℕ) : ℚ)) * 10 ^ e < (p.significand + 1 / 2) * 2 ^ p.exponent := by
        push_cast
        nlinarith
      have hlower : (p.significand - p.lowerGap) * 2 ^ p.exponent < ((k + 1 : ℕ) : ℚ) * 10 ^ e := by
        push_cast
        nlinarith
      exact .inr ⟨hlower.le, hupper.le, fun _ => ⟨hlower, hupper⟩⟩
  cases h₁ : (ofParts p).contains k e with
  | true => cases (ofParts p).contains (k + 1) e <;> rfl
  | false =>
    rw [h₁] at hhit
    rw [hhit.resolve_left (by simp)]
    rfl

/-- The search ends with a hit if the last grid is hit. -/
theorem firstHit_spec {i : Interval} {leading : ℤ} (grids count : ℕ)
    (hlast : (i.onGrid? (leading - (count + grids : ℕ))).isSome) :
    ∃ c, count ≤ c ∧ c ≤ count + grids ∧ (i.firstHit leading grids count).exponent = leading - c ∧
      i.onGrid? (leading - c) = some (i.firstHit leading grids count).digits := by
  induction grids generalizing count with
  | zero =>
    obtain ⟨k, hk⟩ := Option.isSome_iff_exists.1 hlast
    refine ⟨count, le_rfl, le_rfl, rfl, ?_⟩
    rw [Nat.add_zero] at hk
    simp only [firstHit, hk, Option.getD_some]
  | succ grids ih =>
    unfold firstHit
    cases hk : i.onGrid? (leading - count) with
    | some k => exact ⟨count, le_rfl, Nat.le_add_right _ _, rfl, hk⟩
    | none =>
      rw [show count + (grids + 1) = count + 1 + grids by omega] at hlast
      obtain ⟨c, hle, hge, hexponent, hhit⟩ := ih (count + 1) hlast
      exact ⟨c, by omega, by omega, hexponent, hhit⟩

end Interval

/-! ### The shortest decimal -/

/-- The number that a decimal writes. -/
def Digits.toRat (d : Digits) : ℚ := d.digits * 10 ^ d.exponent

/-- Moving zeros into the exponent does not change the number. -/
theorem Digits.stripped_spec (d : Digits) (zeros : ℕ) :
    (d.stripped zeros).toRat = d.toRat ∧ (d.stripped zeros).digits ≤ d.digits ∧
      d.exponent ≤ (d.stripped zeros).exponent ∧
      (d.stripped zeros).exponent ≤ d.exponent + zeros := by
  induction zeros generalizing d with
  | zero => simp [stripped]
  | succ zeros ih =>
    unfold stripped
    split
    · next h =>
      obtain ⟨hvalue, hdigits, hge, hle⟩ := ih ⟨d.digits / 10, d.exponent + 1⟩
      dsimp only at hge hle
      push_cast
      refine ⟨hvalue.trans ?_, hdigits.trans (Nat.div_le_self _ _), by omega, by omega⟩
      obtain ⟨k, hk⟩ := Nat.dvd_of_mod_eq_zero h.2
      simp only [toRat, hk, Nat.mul_div_cancel_left k (by decide : 0 < 10)]
      rw [zpow_add_one₀ (by norm_num)]
      push_cast
      ring
    · exact ⟨rfl, le_rfl, le_rfl, by push_cast; omega⟩

/-- A positive finite double lies between the smallest and the largest one. -/
theorem value_bounds {p : Parts} (hp : p.IsNormal) (hpos : 0 < p.significand) :
    (2 : ℚ) ^ (-1074 : ℤ) ≤ p.significand * 2 ^ p.exponent ∧
      p.significand * 2 ^ p.exponent < (2 : ℚ) ^ (1024 : ℤ) := by
  have hone : (1 : ℚ) ≤ p.significand := by exact_mod_cast hpos
  have hlt : (p.significand : ℚ) < 2 ^ 53 := by exact_mod_cast hp.lt
  constructor
  · calc (2 : ℚ) ^ (-1074 : ℤ) ≤ 2 ^ p.exponent :=
          zpow_le_zpow_right₀ one_le_two hp.minExponent_le
      _ ≤ p.significand * 2 ^ p.exponent := le_mul_of_one_le_left (by positivity) hone
  · calc (p.significand : ℚ) * 2 ^ p.exponent < 2 ^ 53 * 2 ^ p.exponent := by gcongr
      _ = 2 ^ (53 + p.exponent) := by rw [zpow_add₀ two_ne_zero]; rfl
      _ ≤ 2 ^ (1024 : ℤ) := by
          refine zpow_le_zpow_right₀ one_le_two ?_
          have := hp.exponent_le
          omega

/-- The search starts from the magnitude of the double, as the double is not extreme. -/
theorem magnitude_ofParts {p : Parts} (hp : p.IsNormal) (hpos : 0 < p.significand) {leading : ℤ}
    (hleading : magnitude (Interval.ofParts p).value (Interval.ofParts p).denominator = leading) :
    ((10 : ℚ) ^ (leading - 1) ≤ p.significand * 2 ^ p.exponent ∧
      p.significand * 2 ^ p.exponent < (10 : ℚ) ^ leading) ∧ -324 < leading ∧ leading ≤ 309 := by
  obtain ⟨-, hvalue, -⟩ := Interval.ofParts_spec hpos
  obtain ⟨hmin, hmax⟩ := value_bounds hp hpos
  have hd := Interval.denominator_pos p
  have hn : 0 < (Interval.ofParts p).value := by
    simp [Interval.ofParts, Nat.shiftLeft_eq, hpos]
  obtain ⟨hlower, hupper⟩ := div_bounds hn hd
  rw [hvalue] at hlower hupper
  have hrange : |((Interval.ofParts p).value.log2 : ℤ) - (Interval.ofParts p).denominator.log2| ≤
      10000 := by
    have h₁ := (zpow_lt_zpow_iff_right₀ (by norm_num)).1 (hlower.trans hmax)
    have h₂ := (zpow_lt_zpow_iff_right₀ (by norm_num)).1 (hmin.trans_lt hupper)
    rw [abs_le]
    omega
  have hspec := magnitude_spec hn hd hrange
  rw [hvalue, hleading] at hspec
  obtain ⟨habove, hbelow⟩ := hspec
  have hlarge : leading - 1 < 309 := by
    have := two_zpow_le_ten_zpow (j := 1024) (s := 309) (by norm_num) (by norm_num)
    exact (zpow_lt_zpow_iff_right₀ (by norm_num)).1 ((habove.trans_lt hmax).trans_le this)
  have hsmall : -324 < leading := by
    have := ten_zpow_le_two_zpow (j := -1074) (s := -324) (by norm_num) (by norm_num)
    exact (zpow_lt_zpow_iff_right₀ (by norm_num)).1 ((this.trans hmin).trans_lt hbelow)
  exact ⟨⟨habove, hbelow⟩, hsmall, by omega⟩

/-- The grid with seventeen digits is finer than the interval. -/
theorem Interval.onGrid?_last {p : Parts} (hp : p.IsNormal) (hpos : 0 < p.significand) {leading : ℤ}
    (hleading : (10 : ℚ) ^ (leading - 1) ≤ p.significand * 2 ^ p.exponent) :
    ((ofParts p).onGrid? (leading - (1 + 16 : ℕ))).isSome := by
  apply onGrid?_isSome hpos
  -- sixteen digits tell naturals below `2 ^ 53` apart, and at `2 ^ 52` a gap of one quarter will do
  have hfine : (p.significand : ℚ) / 10 ^ 16 < p.lowerGap + 1 / 2 := by
    unfold Parts.lowerGap
    split
    · next h =>
      rw [h.1]
      norm_num
    · have hlt : (p.significand : ℚ) < 2 ^ 53 := by exact_mod_cast hp.lt
      linarith
  calc (10 : ℚ) ^ (leading - (1 + 16 : ℕ)) = 10 ^ (leading - 1) / 10 ^ 16 := by
        rw [show leading - ((1 + 16 : ℕ) : ℤ) = leading - 1 - 16 by push_cast; ring,
          zpow_sub₀ (by norm_num) (leading - 1)]
        rfl
    _ ≤ p.significand * 2 ^ p.exponent / 10 ^ 16 := by gcongr
    _ = p.significand / 10 ^ 16 * 2 ^ p.exponent := by ring
    _ < (p.lowerGap + 1 / 2) * 2 ^ p.exponent := by gcongr

/-- **The shortest decimal names its double.** It lies in the interval of the double, and it has at
most seventeen digits, or is a power of ten. -/
theorem shortest_spec {p : Parts} (hp : p.IsNormal) (hpos : 0 < p.significand) :
    p.Covers (shortest p).toRat ∧ (shortest p).digits ≤ 10 ^ 17 ∧
      -400 ≤ (shortest p).exponent ∧ (shortest p).exponent ≤ 320 := by
  generalize hL : magnitude (Interval.ofParts p).value (Interval.ofParts p).denominator = leading
  obtain ⟨⟨hleading, hbelow⟩, hsmall, hlarge⟩ := magnitude_ofParts hp hpos hL
  obtain ⟨c, hc₁, hc₂, hexponent, hhit⟩ :=
    Interval.firstHit_spec 16 1 (Interval.onGrid?_last hp hpos hleading)
  obtain ⟨hcontains, hdigits⟩ := Interval.onGrid?_spec hhit
  have hcovers := (Interval.contains_iff hpos _ _).1 hcontains
  -- less than a power of ten fits below the value
  have hfloor := (Interval.floor_spec hpos (leading - c)).1
  generalize (Interval.ofParts p).value * tenPow (-(leading - c)) /
    ((Interval.ofParts p).denominator * tenPow (leading - c)) = k at *
  have hk : k < 10 ^ c := by
    have hlt : (k : ℚ) * 10 ^ (leading - c) < 10 ^ c * 10 ^ (leading - c) := by
      rw [← zpow_natCast, ← zpow_add₀ (by norm_num), show (c : ℤ) + (leading - c) = leading by ring]
      exact hfloor.trans_lt hbelow
    exact_mod_cast lt_of_mul_lt_mul_right hlt (by positivity)
  have hpow : 10 ^ c ≤ 10 ^ 17 := Nat.pow_le_pow_right (by decide) (by omega)
  have hdef : shortest p = ((Interval.ofParts p).firstHit leading 16 1).stripped 1 := by
    rw [← hL]
    rfl
  obtain ⟨hrat, hle, hexponent₁, hexponent₂⟩ :=
    ((Interval.ofParts p).firstHit leading 16 1).stripped_spec 1
  rw [hdef, hrat, Digits.toRat]
  rw [hexponent] at hexponent₁ hexponent₂ ⊢
  exact ⟨hcovers, by omega, by omega, by push_cast at hexponent₂; omega⟩

/-- What a finite double covers is less than the power of two that is next above all doubles. -/
theorem lt_of_covers {p : Parts} (hp : p.IsNormal) {x : ℚ} (h : p.Covers x) :
    x < (2 : ℚ) ^ (1024 : ℤ) := by
  have hm : (p.significand : ℚ) + 1 ≤ 2 ^ 53 := by exact_mod_cast hp.lt
  calc x ≤ (p.significand + 1 / 2) * 2 ^ p.exponent := h.le_upper
    _ < 2 ^ 53 * 2 ^ p.exponent := by gcongr; linarith
    _ = 2 ^ (53 + p.exponent) := by rw [zpow_add₀ two_ne_zero]; rfl
    _ ≤ 2 ^ (1024 : ℤ) := by
      refine zpow_le_zpow_right₀ one_le_two ?_
      have := hp.exponent_le
      omega

/-- A decimal is read as a double that covers it, if the estimate of its size is not extreme. -/
theorem toDouble_eq_of_covers {p : Parts} (hp : p.IsNormal) {n : ℕ} {e : ℤ} (hn : 0 < n)
    (hlow : -400 ≤ e) (hhigh : (n.log2 : ℤ) * 30103 / 100000 + e ≤ 400)
    (h : p.Covers (n * 10 ^ e)) (negative : Bool) :
    toDouble negative n e = ofMagnitude negative p.bits := by
  have hd := tenPow_pos (-e)
  have hd' : (tenPow (-e) : ℚ) ≠ 0 := by exact_mod_cast hd.ne'
  have hquotient : ((n * tenPow e : ℕ) : ℚ) / tenPow (-e) = n * 10 ^ e := by
    rw [Nat.cast_mul, tenPow_eq e]
    field_simp
  have hestimate : 0 ≤ (n.log2 : ℤ) * 30103 / 100000 := by omega
  have hdef : toDouble negative n e = nearest negative (n * tenPow e) (tenPow (-e)) := by
    unfold toDouble
    simp only
    rw [if_neg (by omega), if_neg (by omega)]
  rw [← hquotient] at h
  rw [hdef]
  exact nearest_eq_of_covers hp (Nat.mul_pos hn (tenPow_pos e)) hd h negative

/-- **The shortest decimal is read as its double**, with its own digits or, if it is an integer,
with zeros in place of the power of ten. -/
theorem toDouble_shortest {p : Parts} (hp : p.IsNormal) (hpos : 0 < p.significand) {n : ℕ} {e : ℤ}
    (hvalue : (n : ℚ) * 10 ^ e = (shortest p).toRat)
    (hform : n = (shortest p).digits ∧ e = (shortest p).exponent ∨ -1 ≤ e ∧ e ≤ 0)
    (negative : Bool) : toDouble negative n e = ofMagnitude negative p.bits := by
  obtain ⟨hcovers, hdigits, hmin, hmax⟩ := shortest_spec hp hpos
  rw [← hvalue] at hcovers
  have hn : 0 < n := by
    have hlt := hcovers.pos hpos
    by_contra hzero
    rw [Nat.eq_zero_of_not_pos hzero] at hlt
    simp at hlt
  refine toDouble_eq_of_covers hp hn (by omega) ?_ hcovers negative
  -- the binary length of the digits
  rcases hform with ⟨hn', he⟩ | ⟨he₁, he₂⟩
  · have hlog : n.log2 < 57 := (Nat.log2_lt hn.ne').2 (by omega)
    omega
  · have hlog : n.log2 < 1028 := by
      refine (Nat.log2_lt hn.ne').2 ?_
      have hten : (10 : ℚ) ^ (-1 : ℤ) ≤ 10 ^ e := zpow_le_zpow_right₀ (by norm_num) he₁
      have hlt : (n : ℚ) * 10 ^ (-1 : ℤ) < 2 ^ (1024 : ℤ) :=
        (mul_le_mul_of_nonneg_left hten n.cast_nonneg).trans_lt (lt_of_covers hp hcovers)
      rw [zpow_neg_one, ← div_eq_mul_inv, div_lt_iff₀ (by norm_num)] at hlt
      have hlt : n < 2 ^ 1024 * 10 := by exact_mod_cast hlt
      omega
    omega

end Abacus.Decimal
