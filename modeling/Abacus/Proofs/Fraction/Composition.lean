import Abacus.Proofs.Value.Hereditary
import Abacus.Proofs.Fraction.WellFormed

/-!
# What fractions are made of

Fractions come from parts, from integers and from doubles, and are made of other fractions by
arithmetic, by changes of sign and by rounding towards zero (`Fraction.Composed`). However this is
done, what comes out is well-formed and has an exact negative and an exact magnitude, if no integer
that goes in is the smallest one of 64 bits (`Fraction.isWellFormed_of_composed`).

The smallest integer is the one fraction without a negative. Parts and doubles cannot give it and
arithmetic cannot reach it, as all of these go through `ofParts?`. An integer is taken as it is.
-/

namespace Abacus.Fraction

open Binary64 (minInt maxInt)

/-- What can be made in finitely many steps, given which integers become fractions. -/
inductive Composed (integers : Int → Prop) : Fraction → Prop
  | make {n d : Int} {q : Fraction} (h : make n d = .ok q) : Composed integers q
  | ofInt {n : Int} (h : integers n) : Composed integers (.ofInt n)
  | near? {x tolerance : Float} {terms : Nat} {q : Fraction}
      (h : near? x tolerance terms = some q) : Composed integers q
  | arith? {op : Arith} {p q r : Fraction} (hp : Composed integers p) (hq : Composed integers q)
      (h : arith? op p q = some r) : Composed integers r
  | neg {q : Fraction} (hq : Composed integers q) : Composed integers q.neg
  | abs {q : Fraction} (hq : Composed integers q) : Composed integers q.abs
  | trunc {q : Fraction} (hq : Composed integers q) : Composed integers q.trunc

theorem Composed.isNegatable {integers : Int → Prop} (hintegers : ∀ n, integers n → minInt < n)
    {q : Fraction} (h : Composed integers q) : q.IsNegatable := by
  induction h with
  | make h => exact isNegatable_of_make h
  | ofInt h => exact isNegatable_ofInt_of_lt (hintegers _ h)
  | near? h => exact isNegatable_of_near? h
  | arith? _ _ h => exact (arith?_eq_some h).2
  | neg _ ih => exact ih.neg
  | abs _ ih => exact ih.abs
  | trunc _ ih => exact (trunc_toRat ih).2

/-- **Fractions are well-formed, however they are made,** from integers above the smallest one. -/
theorem isWellFormed_of_composed {integers : Int → Prop}
    (hintegers : ∀ n, integers n → minInt < n) {q : Fraction} (h : Composed integers q) :
    q.IsWellFormed ∧ q.neg.toRat = -q.toRat ∧ q.abs.toRat = |q.toRat| := by
  have hnegatable := h.isNegatable hintegers
  exact ⟨isWellFormed_iff.2 hnegatable, neg_toRat hnegatable, abs_toRat hnegatable⟩

/-- The difference of minus three quarters and minus one, with its sign changed. -/
theorem isWellFormed_of_composed_difference :
    let integers : Int → Prop := fun n => minInt < n ∧ n ≤ maxInt
    let q : Fraction := ⟨-3, 4, by decide, by decide, by decide, by decide, by decide⟩
    let r : Fraction := ⟨1, 4, by decide, by decide, by decide, by decide, by decide⟩
    make 6 (-8) = .ok q ∧ arith? .sub q (ofInt (-1)) = some r ∧ Composed integers r.neg ∧
      r.neg.IsWellFormed ∧ r.neg.abs.toRat = |r.neg.toRat| := by
  intro integers q r
  have hmake : make 6 (-8) = .ok q := by rfl
  have hsub : arith? .sub q (ofInt (-1)) = some r := by decide +kernel
  have hcomposed : Composed integers r.neg :=
    .neg (.arith? (.make hmake) (.ofInt (by decide)) hsub)
  obtain ⟨hwell, -, habs⟩ := isWellFormed_of_composed (fun n hn => hn.1) hcomposed
  exact ⟨hmake, hsub, hcomposed, hwell, habs⟩

/-- The smallest integer is taken as it is, and has neither a negative nor a magnitude. -/
theorem not_isWellFormed_of_composed :
    Composed (fun n => minInt ≤ n ∧ n ≤ maxInt) (ofInt minInt) ∧ ¬ (ofInt minInt).IsWellFormed ∧
      (ofInt minInt).neg.toRat ≠ -(ofInt minInt).toRat ∧
      (ofInt minInt).abs.toRat ≠ |(ofInt minInt).toRat| := by
  refine ⟨.ofInt (by decide), by decide, ?_, ?_⟩
  · decide +kernel
  · decide +kernel

end Abacus.Fraction
