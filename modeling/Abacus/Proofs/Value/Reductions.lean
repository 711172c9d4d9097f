import Abacus.Proofs.Evaluation.Exactness
import Abacus.Proofs.Fraction.Order
import Abacus.Proofs.Value.Fractions
import Mathlib

/-!
# Reductions of fractions

A structure of fractions is counted, added up, averaged and searched for its least and greatest
element without any error, and neither the order of the fractions nor the way they are nested
matters (`Value.reductions_exact`).

All five operations see a structure only as the list of its leaves, so the first thing to know is
that none is lost or listed twice (`Value.IsFractional.leaves_eq`). What remains is about lists. A
running total is exact or a double (`Value.exists_foldlM_add`), and it stays a double. The best
element so far is one of those that were seen, and none of them is better
(`Value.exists_foldlM_extremum`); minimum and maximum differ in the sign of what is compared.
-/

namespace Abacus.Value

open Binary64 (minInt maxInt)

/-- A value whose leaves are fractions, at whatever depth. -/
inductive IsFractional : Value → Prop
  | rational (q : Fraction) : IsFractional (.rational q)
  | vector {vs : List Value} (h : ∀ v ∈ vs, IsFractional v) : IsFractional (.vector vs)
  | matrix {rows : List (List Value)} (h : ∀ row ∈ rows, ∀ v ∈ row, IsFractional v) :
      IsFractional (.matrix rows)

/-! ### Leaves -/

theorem leavesOfElements_eq {vs : List Value}
    (h : ∀ v ∈ vs, v.leaves = .ok (v.fractions.map .rational)) :
    leavesOfElements vs = .ok ((fractionsOfElements vs).map .rational) := by
  induction vs with
  | nil => rfl
  | cons v vs ih =>
    obtain ⟨hv, hvs⟩ := List.forall_mem_cons.1 h
    rw [leavesOfElements, fractionsOfElements, hv, ih hvs, List.map_append]
    rfl

theorem leavesOfRows_eq {rows : List (List Value)}
    (h : ∀ row ∈ rows, ∀ v ∈ row, v.leaves = .ok (v.fractions.map .rational)) :
    leavesOfRows rows = .ok ((fractionsOfRows rows).map .rational) := by
  induction rows with
  | nil => rfl
  | cons row rows ih =>
    obtain ⟨hrow, hrows⟩ := List.forall_mem_cons.1 h
    rw [leavesOfRows, fractionsOfRows, leavesOfElements_eq hrow, ih hrows, List.map_append]
    rfl

/-- The leaves of a structure of fractions are its fractions. -/
theorem IsFractional.leaves_eq {v : Value} (h : v.IsFractional) :
    v.leaves = .ok (v.fractions.map .rational) := by
  induction h with
  | rational q => rfl
  | vector _ ih => exact leavesOfElements_eq ih
  | matrix _ ih => exact leavesOfRows_eq ih

/-! ### Totals -/

/-- Fractions are added to an exact total exactly, or the total becomes a double. -/
theorem exists_foldlM_add {qs : List Fraction} (hqs : ∀ q ∈ qs, q.IsNegatable) {total : Value}
    {a : ℚ} (h : total.IsExact (some a)) :
    ∃ s, (qs.map Value.rational).foldlM (fun total x => arith .add total x) total = .ok s ∧
      s.IsExact (some (a + (qs.map Fraction.toRat).sum)) := by
  induction qs generalizing total a with
  | nil => exact ⟨total, rfl, by simpa using h⟩
  | cons q qs ih =>
    obtain ⟨hq, hqs⟩ := List.forall_mem_cons.1 hqs
    obtain ⟨next, hnext, hexact⟩ := h.arith .add (.rational hq)
    obtain ⟨s, hs, hsum⟩ := ih hqs hexact
    refine ⟨s, ?_, ?_⟩
    · rw [List.map_cons, List.foldlM_cons, hnext]
      exact hs
    · rwa [List.map_cons, List.sum_cons, ← add_assoc]

theorem exists_sum {v : Value} (hv : v.IsFractional) (hfractions : v.HasWellFormedFractions) :
    ∃ s, v.sum = .ok s ∧ s.IsExact (some (v.fractions.map Fraction.toRat).sum) := by
  have hwell : ∀ q ∈ v.fractions, q.IsNegatable := fun q hq =>
    Fraction.isWellFormed_iff.1 (hfractions q hq)
  have hzero : zero.IsExact (some 0) := .of_eq (by decide) (by decide)
  obtain ⟨s, hs, hexact⟩ := exists_foldlM_add hwell hzero
  refine ⟨s, ?_, by rwa [zero_add] at hexact⟩
  rw [sum, hv.leaves_eq]
  exact hs

theorem count_eq {v : Value} (hv : v.IsFractional) : v.count = .ok (ofInt v.fractions.length) := by
  rw [count, hv.leaves_eq, ok_bind, List.length_map]
  rfl

/-- The mean is the total divided by the number of leaves, which is not zero. -/
theorem exists_mean {v : Value} (hv : v.IsFractional) (hfractions : v.HasWellFormedFractions)
    (hne : v.fractions ≠ []) :
    ∃ m, v.mean = .ok m ∧ m.IsExact (Arith.div.onRats? (v.fractions.map Fraction.toRat).sum
      (Fraction.ofInt v.fractions.length).toRat) := by
  obtain ⟨s, hs, hsum⟩ := exists_sum hv hfractions
  have hcount := IsExact.rational
    (Fraction.isNegatable_ofInt_of_nonneg (Int.natCast_nonneg v.fractions.length))
  obtain ⟨m, hm, hexact⟩ := hsum.arith .div hcount
  refine ⟨m, ?_, hexact⟩
  rw [mean, hv.leaves_eq, ok_bind, List.length_map]
  split
  · next hzero => exact absurd (List.length_eq_zero_iff.1 hzero) hne
  · rw [hs]
    exact hm

/-! ### Extrema -/

section

variable {wanted : Ordering} {key : Fraction → ℚ}
  (hkey : ∀ p q : Fraction, p.compare q = wanted ↔ key p < key q)

include hkey

/-- The better one of two elements is kept, which is better where its key is smaller. -/
theorem exists_better (p first : Fraction) :
    ∃ best, (do return if (← compare (.rational p) (.rational first)) == wanted
        then Value.rational p else .rational first : Except Fault Value) = .ok (.rational best) ∧
      (best = p ∨ best = first) ∧ key best ≤ key p ∧ key best ≤ key first := by
  change ∃ best, Except.ok (if p.compare first == wanted
    then Value.rational p else .rational first) = _ ∧ _
  by_cases hbetter : p.compare first = wanted
  · refine ⟨p, ?_, .inl rfl, le_rfl, ((hkey p first).1 hbetter).le⟩
    rw [if_pos (beq_iff_eq.2 hbetter)]
  · refine ⟨first, ?_, .inr rfl, not_lt.1 (mt (hkey p first).2 hbetter), le_rfl⟩
    rw [if_neg (mt beq_iff_eq.1 hbetter)]

/-- The best element of a list is one of the list, and none has a smaller key. -/
theorem exists_foldlM_extremum (first : Fraction) (rest : List Fraction) :
    ∃ q ∈ first :: rest,
      (rest.map Value.rational).foldlM
        (fun best x => do return if (← x.compare best) == wanted then x else best)
        (.rational first) = .ok (.rational q) ∧
      ∀ p ∈ first :: rest, key q ≤ key p := by
  induction rest generalizing first with
  | nil => exact ⟨first, List.mem_cons_self, rfl, by simp⟩
  | cons p rest ih =>
    obtain ⟨best, hstep, hbest, hp, hfirst⟩ := exists_better hkey p first
    obtain ⟨q, hq, hfold, hleast⟩ := ih best
    obtain ⟨hle, hrest⟩ := List.forall_mem_cons.1 hleast
    refine ⟨q, ?_, ?_, ?_⟩
    · rcases List.mem_cons.1 hq with rfl | hq
      · rcases hbest with rfl | rfl <;> simp
      · exact List.mem_cons_of_mem _ (List.mem_cons_of_mem _ hq)
    · rw [List.map_cons, List.foldlM_cons, hstep]
      exact hfold
    · exact List.forall_mem_cons.2
        ⟨hle.trans hfirst, List.forall_mem_cons.2 ⟨hle.trans hp, hrest⟩⟩

theorem exists_extremum {v : Value} (hv : v.IsFractional) (hne : v.fractions ≠ []) :
    ∃ q ∈ v.fractions, v.extremum wanted = .ok (.rational q) ∧
      ∀ p ∈ v.fractions, key q ≤ key p := by
  rw [extremum, hv.leaves_eq, ok_bind]
  cases hfractions : v.fractions with
  | nil => exact absurd hfractions hne
  | cons first rest => exact exists_foldlM_extremum hkey first rest

/-- Two fractions that are both the best of the same leaves have the same key. -/
theorem extremum_eq_of_perm (hinjective : Function.Injective key) {v w : Value}
    (hv : v.IsFractional) (hne : v.fractions ≠ []) (hw : w.IsFractional)
    (hperm : w.fractions.Perm v.fractions) : w.extremum wanted = v.extremum wanted := by
  have hne' : w.fractions ≠ [] := fun hnil => hne (List.perm_nil.1 (hnil ▸ hperm.symm))
  obtain ⟨q, hq, hbest, hleast⟩ := exists_extremum hkey hv hne
  obtain ⟨q', hq', hbest', hleast'⟩ := exists_extremum hkey hw hne'
  have hle : key q ≤ key q' := hleast q' (hperm.mem_iff.1 hq')
  have hge : key q' ≤ key q := hleast' q (hperm.mem_iff.2 hq)
  rw [hbest, hbest', hinjective (le_antisymm hge hle)]

end

/-! ### Reductions -/

/-- The greatest fraction is the one whose negative is least. -/
theorem compare_eq_gt_iff_neg (p q : Fraction) : p.compare q = .gt ↔ -p.toRat < -q.toRat := by
  rw [Fraction.compare_eq_gt_iff, neg_lt_neg_iff]

/-- A fraction is the exact result for no other number than its own. -/
theorem IsExact.eq_some {q : Fraction} {a : Option ℚ} (h : (Value.rational q).IsExact a) :
    a = some q.toRat := by
  cases h with
  | rational _ => rfl

/-- Two exact results for one number are equal, where both are fractions. -/
theorem eq_of_isExact {a : Option ℚ} {e e' : Except Fault Value} {p q : Fraction}
    (h : ∃ s, e = .ok s ∧ s.IsExact a) (h' : ∃ s, e' = .ok s ∧ s.IsExact a)
    (hp : e = .ok (.rational p)) (hq : e' = .ok (.rational q)) : p = q := by
  obtain ⟨s, hs, hexact⟩ := h
  obtain ⟨s', hs', hexact'⟩ := h'
  obtain rfl := Except.ok.inj (hs.symm.trans hp)
  obtain rfl := Except.ok.inj (hs'.symm.trans hq)
  exact Fraction.toRat_injective (Option.some.inj (hexact.eq_some.symm.trans hexact'.eq_some))

/-- **Reductions of fractions are exact, whatever their order and nesting.** For a structure of
well-formed fractions with one leaf at least, the minimum is the least leaf and the maximum the
greatest. The sum is the sum of the leaves or a double. If the number of leaves fits into 64 bits,
the count is that number, and the mean is the sum divided by it or a double. Another structure with
the same leaves has the same count, minimum and maximum, and where both sums or both means are
fractions, they are equal. -/
theorem reductions_exact (context : OperationContext) {v : Value} (hv : v.IsFractional)
    (hfractions : v.HasWellFormedFractions) (hne : v.fractions ≠ []) :
    (∃ q ∈ v.fractions, UnaryOp.min.apply context v = .ok (.rational q) ∧
      ∀ p ∈ v.fractions, q.toRat ≤ p.toRat) ∧
    (∃ q ∈ v.fractions, UnaryOp.max.apply context v = .ok (.rational q) ∧
      ∀ p ∈ v.fractions, p.toRat ≤ q.toRat) ∧
    (∃ s, UnaryOp.sum.apply context v = .ok s ∧
      s.IsExact (some (v.fractions.map Fraction.toRat).sum)) ∧
    ((v.fractions.length : ℤ) ≤ maxInt →
      (∃ n, UnaryOp.count.apply context v = .ok (.rational n) ∧ n.toRat = v.fractions.length) ∧
      ∃ m, UnaryOp.mean.apply context v = .ok m ∧
        m.IsExact (some ((v.fractions.map Fraction.toRat).sum / v.fractions.length))) ∧
    ∀ w : Value, w.IsFractional → w.fractions.Perm v.fractions →
      UnaryOp.count.apply context w = UnaryOp.count.apply context v ∧
      UnaryOp.min.apply context w = UnaryOp.min.apply context v ∧
      UnaryOp.max.apply context w = UnaryOp.max.apply context v ∧
      (∀ p q, UnaryOp.sum.apply context w = .ok (.rational p) →
        UnaryOp.sum.apply context v = .ok (.rational q) → p = q) ∧
      ∀ p q, UnaryOp.mean.apply context w = .ok (.rational p) →
        UnaryOp.mean.apply context v = .ok (.rational q) → p = q := by
  obtain ⟨s, hs, hsum⟩ := exists_sum hv hfractions
  obtain ⟨m, hm, hmean⟩ := exists_mean hv hfractions hne
  have hless : ∀ p q : Fraction, p.compare q = .lt ↔ p.toRat < q.toRat :=
    fun _ _ => Fraction.compare_eq_lt_iff
  refine ⟨?_, ?_, ⟨s, hs, hsum⟩, fun hlength => ?_, fun w hw hperm => ?_⟩
  · exact exists_extremum hless hv hne
  · obtain ⟨q, hq, hmax, hgreatest⟩ := exists_extremum compare_eq_gt_iff_neg hv hne
    exact ⟨q, hq, hmax, fun p hp => neg_le_neg_iff.1 (hgreatest p hp)⟩
  · have hmin : minInt ≤ (v.fractions.length : ℤ) := by
      simp only [minInt]
      omega
    have hcount := Fraction.toRat_ofInt hmin hlength
    rw [Int.cast_natCast] at hcount
    refine ⟨⟨_, count_eq hv, hcount⟩, m, hm, ?_⟩
    -- there is a leaf, so the number of leaves is a divisor
    have hpos : (v.fractions.length : ℚ) ≠ 0 := by
      exact_mod_cast mt List.length_eq_zero_iff.1 hne
    rwa [hcount, Arith.onRats?, if_neg hpos] at hmean
  · have hne' : w.fractions ≠ [] := fun hnil => hne (List.perm_nil.1 (hnil ▸ hperm.symm))
    have hfractions' : w.HasWellFormedFractions := fun q hq => hfractions q (hperm.mem_iff.1 hq)
    -- the exact results are those of the leaves, which are the same numbers in another order
    have hsum' := exists_sum hw hfractions'
    have hmean' := exists_mean hw hfractions' hne'
    rw [(hperm.map Fraction.toRat).sum_eq] at hsum' hmean'
    rw [hperm.length_eq] at hmean'
    refine ⟨?_, ?_, ?_, fun p q => eq_of_isExact hsum' ⟨s, hs, hsum⟩, fun p q =>
      eq_of_isExact hmean' ⟨m, hm, hmean⟩⟩
    · change w.count = v.count
      rw [count_eq hw, count_eq hv, hperm.length_eq]
    · exact extremum_eq_of_perm hless Fraction.toRat_injective hv hne hw hperm
    · exact extremum_eq_of_perm compare_eq_gt_iff_neg
        (neg_injective.comp Fraction.toRat_injective) hv hne hw hperm

/-- A ragged matrix with a vector that contains an empty one, and a vector of the same leaves. -/
theorem reductions_exact_ragged :
    let context : OperationContext := ⟨.radians, {}⟩
    let half : Fraction := ⟨1, 2, by decide, by decide, by decide, by decide, by decide⟩
    let third : Fraction := ⟨1, 3, by decide, by decide, by decide, by decide, by decide⟩
    let v := matrix [[.rational half, vector [vector [], .rational third]], [], [ofInt (-2)]]
    let w := vector [.rational third, ofInt (-2), .rational half]
    v.IsFractional ∧ v.HasWellFormedFractions ∧ v.fractions ≠ [] ∧
      (∃ q ∈ v.fractions, UnaryOp.min.apply context v = .ok (.rational q) ∧
        ∀ p ∈ v.fractions, q.toRat ≤ p.toRat) ∧
      (∃ m, UnaryOp.mean.apply context v = .ok m ∧ m.IsExact (some (-7 / 18))) ∧
      w.IsFractional ∧ w.fractions.Perm v.fractions ∧
      UnaryOp.max.apply context w = UnaryOp.max.apply context v := by
  intro context half third v w
  have hinner : (vector [vector [], .rational third]).IsFractional :=
    .vector (by simp [IsFractional.rational, IsFractional.vector])
  have hv : v.IsFractional := .matrix (by simp [IsFractional.rational, hinner, ofInt])
  have hfractions : v.HasWellFormedFractions := by decide
  have hne : v.fractions ≠ [] := by decide
  have hw : w.IsFractional := .vector (by simp [IsFractional.rational, ofInt])
  have hperm : w.fractions.Perm v.fractions := by decide
  obtain ⟨hmin, -, -, hcounted, hsame⟩ := reductions_exact context hv hfractions hne
  obtain ⟨-, m, hm, hmean⟩ := hcounted (by decide)
  have hvalue : (v.fractions.map Fraction.toRat).sum / v.fractions.length = -7 / 18 := by
    decide +kernel
  rw [hvalue] at hmean
  exact ⟨hv, hfractions, hne, hmin, ⟨m, hm, hmean⟩, hw, hperm, (hsame w hw hperm).2.2.1⟩

end Abacus.Value
