import Abacus.Fraction.Arithmetic
import Mathlib.Data.Nat.Cast.Field
import Mathlib.Data.Rat.Floor
import Mathlib.Tactic.FieldSimp

/-!
# Quotients of integers

A fraction is the quotient of its parts, and it is made from the quotient of two integers. There is
one for a quotient if and only if there is a fraction that is worth it and can be negated
(`Fraction.ofParts?_eq_some_iff`). The same holds of the quotients that products and quotients of
fractions compute (`Fraction.mul?_eq_some_iff` and `Fraction.div?_eq_some_iff`): the parts are
divided across before they are multiplied, so they are in lowest terms already
(`Fraction.coprime_crossed`), and nothing larger than the result comes up on the way.
-/

namespace Abacus.Fraction

open Binary64 (minInt maxInt)

/-! ### The rational number of a fraction -/

theorem toRat_eq_div (q : Fraction) : q.toRat = q.numerator / q.denominator :=
  (Rat.num_div_den q.toRat).symm

theorem denominator_ne_zero (q : Fraction) : (q.denominator : ℚ) ≠ 0 :=
  Nat.cast_ne_zero.2 (Nat.ne_of_gt q.denominator_pos)

theorem numerator_ofInt {n : Int} (hmin : minInt ≤ n) (hmax : n ≤ maxInt) :
    (ofInt n).numerator = n := by
  change Binary64.clamp n = n
  simp only [Binary64.clamp]
  omega

theorem toRat_ofInt {n : Int} (hmin : minInt ≤ n) (hmax : n ≤ maxInt) : (ofInt n).toRat = n := by
  rw [toRat_eq_div, numerator_ofInt hmin hmax, show (ofInt n).denominator = 1 from rfl,
    Nat.cast_one, div_one]

theorem toRat_eq_zero_iff (q : Fraction) : q.toRat = 0 ↔ q.numerator = 0 := by
  rw [toRat_eq_div, div_eq_zero_iff]
  simp [q.denominator_ne_zero]

/-- Fractions are in lowest terms, so equal numbers have equal parts. -/
theorem toRat_injective : Function.Injective toRat := by
  intro p q h
  have hnum : p.toRat.num = q.toRat.num := congrArg Rat.num h
  have hden : p.toRat.den = q.toRat.den := congrArg Rat.den h
  exact Fraction.ext hnum hden

/-- What is at least the negative of the largest integer can be negated. -/
theorem isNegatable_of_neg_maxInt_le {q : Fraction} (h : -maxInt ≤ q.numerator) :
    q.IsNegatable := by
  simp only [IsNegatable, minInt, maxInt] at *
  omega

theorem isNegatable_ofInt {n : Int} (hmin : -maxInt ≤ n) (hmax : n ≤ maxInt) :
    (ofInt n).IsNegatable := by
  simp only [IsNegatable, ofInt, Binary64.clamp, minInt, maxInt] at *
  omega

theorem neg_maxInt_le_of_isNegatable {q : Fraction} (h : q.IsNegatable) :
    -maxInt ≤ q.numerator := by
  have := q.minInt_le
  simp only [IsNegatable, minInt, maxInt] at *
  omega

theorem word?_eq_some_iff {n m : Int} : word? n = some m ↔ n = m ∧ minInt ≤ n ∧ n ≤ maxInt := by
  simp only [word?]
  split
  · next hfits => simp [hfits]
  · next hfits => simp [hfits]

/-! ### Quotients -/

/-- Quotients are reduced without changing what they are worth. -/
theorem cast_reduced (n : Int) {d : Nat} (pos : 0 < d) :
    ((n / (n.natAbs.gcd d : Nat) : Int) : ℚ) / ((d / n.natAbs.gcd d : Nat) : ℚ) = n / d := by
  have hg : ((n.natAbs.gcd d : Nat) : ℚ) ≠ 0 := Nat.cast_ne_zero.2 (Nat.ne_of_gt (gcd_pos n pos))
  have hn : ((n.natAbs.gcd d : Nat) : Int) ∣ n := Int.ofNat_dvd_left.2 (Nat.gcd_dvd_left _ _)
  have hd : n.natAbs.gcd d ∣ d := Nat.gcd_dvd_right _ _
  rw [Int.cast_div hn (by exact_mod_cast hg), Nat.cast_div hd hg, Int.cast_natCast,
    div_div_div_cancel_right₀ hg]

/-- A sign that moves to the numerator does not change a quotient. -/
theorem cast_sign_mul_div_natAbs (n : Int) {d : Int} (hd : d ≠ 0) :
    ((d.sign * n : Int) : ℚ) / (d.natAbs : ℚ) = n / d := by
  have hcast : ((d.natAbs : Int) : ℚ) = (d.sign : ℚ) * d := by
    rw [← Int.sign_mul_self_eq_natAbs, Int.cast_mul]
  have hsign : (d.sign : ℚ) ≠ 0 := by
    exact_mod_cast (mt Int.sign_eq_zero_iff_zero.1 hd)
  rw [← Int.cast_natCast, hcast, Int.cast_mul, mul_div_mul_left _ _ hsign]

/-- The parts of a fraction are those of any quotient in lowest terms that is worth it. -/
theorem natAbs_eq_of_toRat_eq_div {n d : Int} {q : Fraction} (hd : d ≠ 0)
    (hcoprime : n.natAbs.Coprime d.natAbs) (h : q.toRat = n / d) :
    n.natAbs = q.numerator.natAbs ∧ d.natAbs = q.denominator := by
  have hpos : (0 : Int) < d.natAbs := Int.natCast_pos.2 (Int.natAbs_pos.2 hd)
  have habs : (d.sign * n).natAbs = n.natAbs := by
    rw [Int.natAbs_mul, Int.natAbs_sign_of_ne_zero hd, Nat.one_mul]
  have hreduced : (d.sign * n).natAbs.Coprime (d.natAbs : Int).natAbs := by
    rw [habs, Int.natAbs_natCast]
    exact hcoprime
  have hsame : q.toRat = ((d.sign * n : Int) : ℚ) / ((d.natAbs : Int) : ℚ) := by
    rw [h, Int.cast_natCast, cast_sign_mul_div_natAbs n hd]
  constructor
  · rw [← habs, ← Rat.num_div_eq_of_coprime hpos hreduced, ← hsame]
    rfl
  · have hden := Rat.den_div_eq_of_coprime hpos hreduced
    rw [← hsame] at hden
    exact_mod_cast hden.symm

/-- A quotient with a positive denominator has a fraction if and only if there is one that is worth
it. -/
theorem ofPositive?_eq_some_iff {n : Int} {d : Nat} {pos : 0 < d} {q : Fraction} :
    ofPositive? n d pos = some q ↔ q.IsNegatable ∧ q.toRat = n / d := by
  rw [← cast_reduced n pos, ofPositive?]
  constructor
  · intro h
    split at h
    · next hfits =>
      obtain rfl := Option.some.inj h
      exact ⟨isNegatable_of_neg_maxInt_le hfits.1, toRat_eq_div _⟩
    · cases h
  · rintro ⟨hnegatable, hq⟩
    -- the reduced parts are those of `q`, so they fit
    rw [← Int.cast_natCast] at hq
    obtain ⟨hnum, hden⟩ := natAbs_eq_of_toRat_eq_div
      (Int.natCast_ne_zero.2 (Nat.ne_of_gt (div_gcd_pos n pos))) (coprime_div_gcd n pos) hq
    have hfits : -maxInt ≤ n / (n.natAbs.gcd d : Nat) ∧ n / (n.natAbs.gcd d : Nat) ≤ maxInt ∧
        ((d / n.natAbs.gcd d : Nat) : Int) ≤ maxInt := by
      have := neg_maxInt_le_of_isNegatable hnegatable
      have := q.le_maxInt
      have := q.denominator_le
      omega
    rw [dif_pos hfits, Option.some.injEq]
    refine toRat_injective ?_
    rw [hq, toRat_eq_div, Int.cast_natCast]

theorem ofParts?_eq_some_iff {n d : Int} {q : Fraction} :
    ofParts? n d = some q ↔ d ≠ 0 ∧ q.IsNegatable ∧ q.toRat = n / d := by
  by_cases hd : d = 0
  · simp [ofParts?, hd]
  · rw [ofParts?, dif_neg hd, ofPositive?_eq_some_iff, cast_sign_mul_div_natAbs n hd]
    simp [hd]

/-- Parts in lowest terms are integers of 64 bits if there is a fraction that is worth their
quotient. -/
theorem bind_word?_eq_some_iff {n d : Int} {q : Fraction} (hd : d ≠ 0)
    (hcoprime : n.natAbs.Coprime d.natAbs) :
    ((word? n).bind fun n => (word? d).bind fun d => ofParts? n d) = some q ↔
      q.IsNegatable ∧ q.toRat = n / d := by
  simp only [Option.bind_eq_some_iff, word?_eq_some_iff]
  constructor
  · rintro ⟨_, ⟨rfl, -⟩, _, ⟨rfl, -⟩, h⟩
    exact (ofParts?_eq_some_iff.1 h).2
  · rintro ⟨hnegatable, hq⟩
    obtain ⟨hnum, hden⟩ := natAbs_eq_of_toRat_eq_div hd hcoprime hq
    -- the magnitudes are those of the parts of `q`
    have := neg_maxInt_le_of_isNegatable hnegatable
    have := q.le_maxInt
    have := q.denominator_le
    refine ⟨n, ⟨rfl, ?_⟩, d, ⟨rfl, ?_⟩, ofParts?_eq_some_iff.2 ⟨hd, hnegatable, hq⟩⟩
    · simp only [minInt, maxInt] at *
      omega
    · simp only [minInt, maxInt] at *
      omega

/-! ### Products and quotients -/

/-- A divisor is divided out without a remainder. -/
theorem cast_ediv {n : Int} {g : Nat} (hdvd : g ∣ n.natAbs) (hg : g ≠ 0) :
    ((n / (g : Int) : Int) : ℚ) = n / g := by
  have hg : ((g : Int) : ℚ) ≠ 0 := by exact_mod_cast hg
  rw [Int.cast_div (Int.natCast_dvd.2 hdvd) hg, Int.cast_natCast]

/-- The parts of a product are divided by what each shares with the part across from it, which does
not change their quotient. -/
theorem cast_crossed (a b c d : Int) (hg : a.natAbs.gcd d.natAbs ≠ 0)
    (hh : b.natAbs.gcd c.natAbs ≠ 0) :
    ((a / (a.natAbs.gcd d.natAbs : Nat) * (c / (b.natAbs.gcd c.natAbs : Nat)) : Int) : ℚ) /
      ((b / (b.natAbs.gcd c.natAbs : Nat) * (d / (a.natAbs.gcd d.natAbs : Nat)) : Int) : ℚ) =
        a / b * (c / d) := by
  rw [Int.cast_mul, Int.cast_mul, cast_ediv (Nat.gcd_dvd_left _ _) hg,
    cast_ediv (Nat.gcd_dvd_right _ _) hh, cast_ediv (Nat.gcd_dvd_left _ _) hh,
    cast_ediv (Nat.gcd_dvd_right _ _) hg]
  have hg : ((a.natAbs.gcd d.natAbs : Nat) : ℚ) ≠ 0 := Nat.cast_ne_zero.2 hg
  have hh : ((b.natAbs.gcd c.natAbs : Nat) : ℚ) ≠ 0 := Nat.cast_ne_zero.2 hh
  field_simp

/-- What `mul?` computes is worth the product. -/
theorem cast_mulParts (p q : Fraction) :
    ((p.numerator / (p.numerator.natAbs.gcd q.denominator : Nat) *
        (q.numerator / (p.denominator.gcd q.numerator.natAbs : Nat)) : Int) : ℚ) /
      ((p.denominator / (p.denominator.gcd q.numerator.natAbs : Nat) *
        (q.denominator / (p.numerator.natAbs.gcd q.denominator : Nat)) : Int) : ℚ) =
      p.toRat * q.toRat := by
  have hg := Nat.ne_of_gt (gcd_pos p.numerator q.denominator_pos)
  have hh : p.denominator.gcd q.numerator.natAbs ≠ 0 :=
    Nat.gcd_ne_zero_left (Nat.ne_of_gt p.denominator_pos)
  rw [toRat_eq_div, toRat_eq_div]
  exact cast_crossed p.numerator p.denominator q.numerator q.denominator hg hh

/-- What `div?` computes is what `mul?` does with the divisor upside down. -/
theorem cast_divParts (p : Fraction) {q : Fraction} (hq : q.numerator ≠ 0) :
    ((p.numerator / (p.numerator.natAbs.gcd q.numerator.natAbs : Nat) *
        (q.denominator / (p.denominator.gcd q.denominator : Nat)) : Int) : ℚ) /
      ((p.denominator / (p.denominator.gcd q.denominator : Nat) *
        (q.numerator / (p.numerator.natAbs.gcd q.numerator.natAbs : Nat)) : Int) : ℚ) =
      p.toRat / q.toRat := by
  have hg : p.numerator.natAbs.gcd q.numerator.natAbs ≠ 0 :=
    Nat.gcd_ne_zero_right (Int.natAbs_ne_zero.2 hq)
  have hh : p.denominator.gcd q.denominator ≠ 0 :=
    Nat.gcd_ne_zero_left (Nat.ne_of_gt p.denominator_pos)
  rw [toRat_eq_div, toRat_eq_div, div_eq_mul_inv (_ / _) (_ / _), inv_div]
  exact cast_crossed p.numerator p.denominator q.denominator q.numerator hg hh

/-- Over equal denominators the quotient is that of the numerators. -/
theorem cast_numerators {p q : Fraction} (h : p.denominator = q.denominator) :
    (p.numerator / q.numerator : ℚ) = p.toRat / q.toRat := by
  rw [toRat_eq_div, toRat_eq_div, h, div_div_div_cancel_right₀ q.denominator_ne_zero]

/-- Under equal numerators the quotient is that of the denominators, upside down. -/
theorem cast_denominators {p q : Fraction} (hq : q.numerator ≠ 0)
    (h : p.numerator = q.numerator) :
    (((q.denominator : Int) : ℚ) / ((p.denominator : Int) : ℚ)) = p.toRat / q.toRat := by
  have hq : (q.numerator : ℚ) ≠ 0 := Int.cast_ne_zero.2 hq
  rw [toRat_eq_div, toRat_eq_div, h, Int.cast_natCast, Int.cast_natCast,
    div_div_div_cancel_left' _ _ hq]

/-- Parts that are divided across are in lowest terms. -/
theorem coprime_crossed {a b c d : Int} (hab : a.natAbs.Coprime b.natAbs)
    (hcd : c.natAbs.Coprime d.natAbs) (hb : b ≠ 0) (hd : d ≠ 0) :
    (a / (a.natAbs.gcd d.natAbs : Nat) * (c / (b.natAbs.gcd c.natAbs : Nat))).natAbs.Coprime
      (b / (b.natAbs.gcd c.natAbs : Nat) * (d / (a.natAbs.gcd d.natAbs : Nat))).natAbs := by
  have hg : 0 < a.natAbs.gcd d.natAbs := Nat.gcd_pos_of_pos_right _ (Int.natAbs_pos.2 hd)
  have hh : 0 < b.natAbs.gcd c.natAbs := Nat.gcd_pos_of_pos_left _ (Int.natAbs_pos.2 hb)
  have hga : a.natAbs.gcd d.natAbs ∣ a.natAbs := Nat.gcd_dvd_left _ _
  have hgd : a.natAbs.gcd d.natAbs ∣ d.natAbs := Nat.gcd_dvd_right _ _
  have hhb : b.natAbs.gcd c.natAbs ∣ b.natAbs := Nat.gcd_dvd_left _ _
  have hhc : b.natAbs.gcd c.natAbs ∣ c.natAbs := Nat.gcd_dvd_right _ _
  rw [Int.natAbs_mul, Int.natAbs_mul, Int.natAbs_ediv_of_dvd (Int.natCast_dvd.2 hga),
    Int.natAbs_ediv_of_dvd (Int.natCast_dvd.2 hhc), Int.natAbs_ediv_of_dvd (Int.natCast_dvd.2 hhb),
    Int.natAbs_ediv_of_dvd (Int.natCast_dvd.2 hgd), Int.natAbs_natCast, Int.natAbs_natCast]
  -- next to each other the parts had no common divisor, and across none is left
  refine Nat.Coprime.mul_left (Nat.Coprime.mul_right ?_ ?_) (Nat.Coprime.mul_right ?_ ?_)
  · exact (hab.coprime_div_left hga).coprime_div_right hhb
  · exact Nat.coprime_div_gcd_div_gcd hg
  · exact (Nat.coprime_div_gcd_div_gcd hh).symm
  · exact (hcd.coprime_div_left hhc).coprime_div_right hgd

/-- The denominator of what is divided across is not zero. -/
theorem divCrossed_ne_zero {b c d a : Int} (hb : b ≠ 0) (hd : d ≠ 0) :
    b / (b.natAbs.gcd c.natAbs : Nat) * (d / (a.natAbs.gcd d.natAbs : Nat)) ≠ 0 := by
  have hdvd : ∀ {n : Int} {g : Nat}, n ≠ 0 → g ∣ n.natAbs → n / (g : Int) ≠ 0 := by
    intro n g hn hg hzero
    have hmul := Int.ediv_mul_cancel (Int.natCast_dvd.2 hg)
    rw [hzero, Int.zero_mul] at hmul
    exact hn hmul.symm
  exact mul_ne_zero (hdvd hb (Nat.gcd_dvd_left _ _)) (hdvd hd (Nat.gcd_dvd_right _ _))

/-- **A product is missing only if there is no fraction for it.** -/
theorem mul?_eq_some_iff {p q r : Fraction} :
    p.mul? q = some r ↔ r.IsNegatable ∧ r.toRat = p.toRat * q.toRat := by
  have hb : (p.denominator : Int) ≠ 0 := Int.natCast_ne_zero.2 (Nat.ne_of_gt p.denominator_pos)
  have hd : (q.denominator : Int) ≠ 0 := Int.natCast_ne_zero.2 (Nat.ne_of_gt q.denominator_pos)
  have hcoprime := coprime_crossed p.coprime q.coprime hb hd
  rw [← cast_mulParts]
  exact bind_word?_eq_some_iff (divCrossed_ne_zero hb hd) hcoprime

/-- **A quotient is missing only if the divisor is zero or there is no fraction for it.** -/
theorem div?_eq_some_iff {p q r : Fraction} :
    p.div? q = some r ↔ q.toRat ≠ 0 ∧ r.IsNegatable ∧ r.toRat = p.toRat / q.toRat := by
  by_cases hq : q.numerator = 0
  · -- the divisor is zero, so there is no quotient
    have hzero := q.toRat_eq_zero_iff.2 hq
    rw [div?, if_pos hq]
    simp [hzero]
  · have hne : q.toRat ≠ 0 := mt q.toRat_eq_zero_iff.1 hq
    rw [div?, if_neg hq]
    split
    · next heq =>
      rw [ofParts?_eq_some_iff, cast_numerators heq]
      simp [hq, hne]
    · split
      · next heq =>
        rw [ofParts?_eq_some_iff, cast_denominators hq heq]
        simp [hne, Nat.ne_of_gt p.denominator_pos]
      · have hb : (p.denominator : Int) ≠ 0 :=
          Int.natCast_ne_zero.2 (Nat.ne_of_gt p.denominator_pos)
        have hcoprime := @coprime_crossed p.numerator p.denominator q.denominator q.numerator
          p.coprime q.coprime.symm hb hq
        rw [and_iff_right hne, ← cast_divParts p hq]
        have hd := @divCrossed_ne_zero p.denominator q.denominator q.numerator p.numerator hb hq
        exact bind_word?_eq_some_iff hd hcoprime

end Abacus.Fraction
