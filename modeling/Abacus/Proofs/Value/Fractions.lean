import Abacus.Proofs.Evaluation.Invariants
import Abacus.Proofs.Fraction.WellFormed

/-!
# Where fractions come from

`Value.fractions` lists the fractions that occur in a value, also those in the literals of the
bodies of functions. That all of them are well-formed is kept by operations
(`Value.hereditary_fractions`) and is an invariant of evaluations (`Scope.invariant_fractions`).
-/

namespace Abacus

mutual

/-- The fractions that occur in a value at any depth. -/
def Value.fractions : Value → List Fraction
  | .rational q => [q]
  | .vector elements => Value.fractionsOfElements elements
  | .matrix rows => Value.fractionsOfRows rows
  | .function f => f.fractions
  | _ => []

/-- The fractions that occur in a list of values. -/
def Value.fractionsOfElements : List Value → List Fraction
  | [] => []
  | v :: vs => v.fractions ++ Value.fractionsOfElements vs

/-- The fractions that occur in rows of values. -/
def Value.fractionsOfRows : List (List Value) → List Fraction
  | [] => []
  | row :: rows => Value.fractionsOfElements row ++ Value.fractionsOfRows rows

/-- The fractions that occur in the body of a function. -/
def Definition.fractions : Definition → List Fraction
  | ⟨_, _, body⟩ => body.fractions

/-- The fractions that occur in the literals of a term. -/
def Term.fractions : Term → List Fraction
  | .literal v => v.fractions
  | .var _ => []
  | .unary _ operand => operand.fractions
  | .binary _ left right => left.fractions ++ right.fractions
  | .vector elements => Term.fractionsOfElements elements
  | .matrix rows => Term.fractionsOfRows rows
  | .call _ arguments => Term.fractionsOfElements arguments
  | .assign _ value => value.fractions

/-- The fractions that occur in a list of terms. -/
def Term.fractionsOfElements : List Term → List Fraction
  | [] => []
  | t :: ts => t.fractions ++ Term.fractionsOfElements ts

/-- The fractions that occur in rows of terms. -/
def Term.fractionsOfRows : List (List Term) → List Fraction
  | [] => []
  | row :: rows => Term.fractionsOfElements row ++ Term.fractionsOfRows rows

end

/-- A value in which all fractions are well-formed. -/
def Value.HasWellFormedFractions (v : Value) : Prop := ∀ q ∈ v.fractions, q.IsWellFormed

/-- A term in whose literals all fractions are well-formed. -/
def Term.HasWellFormedFractions (t : Term) : Prop := ∀ q ∈ t.fractions, q.IsWellFormed

instance : DecidablePred Value.HasWellFormedFractions := fun _ => List.decidableBAll _ _

instance : DecidablePred Term.HasWellFormedFractions := fun _ => List.decidableBAll _ _

/-! ### Parts of values and terms -/

namespace Value

theorem mem_fractionsOfElements {q : Fraction} {vs : List Value} :
    q ∈ fractionsOfElements vs ↔ ∃ v ∈ vs, q ∈ v.fractions := by
  induction vs with
  | nil => simp [fractionsOfElements]
  | cons v vs ih => simp [fractionsOfElements, ih]

theorem mem_fractionsOfRows {q : Fraction} {rows : List (List Value)} :
    q ∈ fractionsOfRows rows ↔ ∃ row ∈ rows, ∃ v ∈ row, q ∈ v.fractions := by
  induction rows with
  | nil => simp [fractionsOfRows]
  | cons row rows ih => simp [fractionsOfRows, mem_fractionsOfElements, ih]

theorem hasWellFormedFractions_rational {q : Fraction} :
    (rational q).HasWellFormedFractions ↔ q.IsNegatable := by
  rw [← Fraction.isWellFormed_iff]
  exact List.forall_mem_singleton

/-- **Operations keep fractions well-formed.** -/
theorem hereditary_fractions : Hereditary HasWellFormedFractions where
  vector := by
    simp only [HasWellFormedFractions, fractions, mem_fractionsOfElements]
    grind
  matrix := by
    simp only [HasWellFormedFractions, fractions, mem_fractionsOfRows]
    grind
  double _ _ h := absurd h List.not_mem_nil
  percent _ _ h := absurd h List.not_mem_nil
  boolean _ _ h := absurd h List.not_mem_nil
  rational h := hasWellFormedFractions_rational.2 h
  neg h := hasWellFormedFractions_rational.2 (hasWellFormedFractions_rational.1 h).neg
  abs h := hasWellFormedFractions_rational.2 (hasWellFormedFractions_rational.1 h).abs
  rounding mode q h := by
    have h := hasWellFormedFractions_rational.1 h
    refine hasWellFormedFractions_rational.2 ?_
    cases mode with
    | floor => exact h.floor
    | ceil => exact h.ceil
    | round => exact h.round
    | trunc => exact (Fraction.trunc_toRat h).2

end Value

namespace Term

theorem mem_fractionsOfElements {q : Fraction} {ts : List Term} :
    q ∈ fractionsOfElements ts ↔ ∃ t ∈ ts, q ∈ t.fractions := by
  induction ts with
  | nil => simp [fractionsOfElements]
  | cons t ts ih => simp [fractionsOfElements, ih]

theorem mem_fractionsOfRows {q : Fraction} {rows : List (List Term)} :
    q ∈ fractionsOfRows rows ↔ ∃ row ∈ rows, ∃ t ∈ row, q ∈ t.fractions := by
  induction rows with
  | nil => simp [fractionsOfRows]
  | cons row rows ih => simp [fractionsOfRows, mem_fractionsOfElements, ih]

theorem fractions_subset_of_mem_parts {t u : Term} (h : u ∈ t.parts) :
    u.fractions ⊆ t.fractions := by
  intro q hq
  cases t with
  | literal v => cases h
  | var y => cases h
  | unary op t => exact List.mem_singleton.1 h ▸ hq
  | binary op left right =>
    obtain rfl | h := List.mem_cons.1 h
    · exact List.mem_append_left _ hq
    · exact List.mem_append_right _ (List.mem_singleton.1 h ▸ hq)
  | vector ts => exact mem_fractionsOfElements.2 ⟨u, h, hq⟩
  | matrix rows =>
    obtain ⟨row, hrow, hu⟩ := List.mem_flatten.1 h
    exact mem_fractionsOfRows.2 ⟨row, hrow, u, hu, hq⟩
  | call name arguments => exact mem_fractionsOfElements.2 ⟨u, h, hq⟩
  | assign name t => exact List.mem_singleton.1 h ▸ hq

end Term

/-! ### Evaluations -/

namespace Scope

/-- That all fractions are well-formed is an invariant of evaluations, whatever a converter does. -/
theorem invariant_fractions {s : Scope} (hglobals : s.globals.All Value.HasWellFormedFractions) :
    s.Invariant (fun locals t => locals.All Value.HasWellFormedFractions ∧ t.HasWellFormedFractions)
      Value.HasWellFormedFractions (fun _ => True) where
  hereditary := Value.hereditary_fractions
  part h u hu := ⟨h.1, fun q hq => h.2 q (Term.fractions_subset_of_mem_parts hu hq)⟩
  literal h := h.2
  lookup h hv := of_lookup? h.1 hglobals hv
  body {locals x arguments f vs} h hf _ hvs := by
    have hfunction : (Value.function f).HasWellFormedFractions := of_lookup? h.1 hglobals hf
    refine ⟨(Bindings.ofList_spec fun p hp => hvs p.2 (List.of_mem_zip hp).2).1, ?_⟩
    obtain ⟨name, parameters, body⟩ := f
    exact hfunction
  unknownVariable _ _ := trivial
  unknownFunction _ _ := trivial
  converter _ _ _ _ := Ends.of_true _
  fault _ := trivial

end Scope

end Abacus
