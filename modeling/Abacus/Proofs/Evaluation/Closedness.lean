import Abacus.Proofs.Evaluation.Dependencies

/-!
# Closed terms meet no unbound names

The evaluation of a term looks names up as variables and as functions to call. If all names of the
term are bound, and all functions that it can come across are closed, then it finds a value under
each of them (`Session.evaluateTerm_kind_ne_unbound`). A function is closed if the names in its body
are parameters of its own or bound globally (`Definition.IsClosed`).

Functions are values that are stored, chosen, passed on and called under other names. So it is not
enough that the functions under the names of a term are closed. All functions in what is bound have
to be, and all those in the literals of the term, at whatever depth. The invariant says that this
stays so for every value that turns up. The parameters of a call are bound in place of those of the
caller, and they are bound to as many values as the function has parameters.
-/

namespace Abacus

/-- A function whose body has no names but its parameters and names that are bound. -/
def Definition.IsClosed (globals : Bindings) (f : Definition) : Prop :=
  ∀ x ∈ f.body.identifiers, x ∈ f.parameters ∨ (globals.get? x).isSome

instance (globals : Bindings) : DecidablePred (Definition.IsClosed globals) := fun _ =>
  List.decidableBAll _ _

/-- Where all names of a term are bound, and all functions that occur in the term or in a parameter
are closed. -/
structure Scope.Closes (s : Scope) (locals : Bindings) (t : Term) : Prop where
  names : ∀ x ∈ t.names, (s.lookup? locals x).isSome
  functions : ∀ f ∈ t.functions, f.IsClosed s.globals
  locals : locals.All fun v => ∀ f ∈ v.functions, f.IsClosed s.globals

namespace Scope

variable {s : Scope} {locals : Bindings}

theorem isSome_lookup? {x : String} (h : (locals.get? x).isSome ∨ (s.globals.get? x).isSome) :
    (s.lookup? locals x).isSome := by
  unfold lookup?
  cases hx : locals.get? x with
  | some v => rfl
  | none =>
    rw [hx] at h
    exact h.resolve_left nofun

/-- Being closed is an invariant. -/
theorem invariant_closes
    (hglobals : s.globals.All fun v => ∀ f ∈ v.functions, f.IsClosed s.globals)
    (hconverter : ∀ convert ∈ s.converter, ∀ x source target,
      Ends (fun _ => True) Fault.NotUnbound (convert x source target)) :
    s.Invariant s.Closes (fun v => ∀ f ∈ v.functions, f.IsClosed s.globals) Fault.NotUnbound where
  hereditary := Value.hereditary_functions _
  part h u hu :=
    ⟨fun x hx => h.names x (Term.names_subset_of_mem_parts hu hx),
      fun f hf => h.functions f (Term.functions_subset_of_mem_parts hu hf), h.locals⟩
  literal h := h.functions
  lookup h hv := of_lookup? h.locals hglobals hv
  body {locals x arguments f vs} h hf hlength hvs := by
    obtain ⟨name, parameters, body⟩ := f
    obtain ⟨hself, hbody⟩ := List.forall_mem_cons.1 (of_lookup? h.locals hglobals hf)
    obtain ⟨hall, hbound⟩ := Bindings.ofList_spec
      (P := fun v => ∀ g ∈ v.functions, g.IsClosed s.globals)
      fun p hp => hvs p.2 (List.of_mem_zip hp).2
    refine ⟨fun y hy => isSome_lookup? ?_, hbody, hall⟩
    -- a name in the body is a parameter, which the call binds, or it is bound globally
    refine (hself y (Term.mem_identifiers.2 hy)).imp_left fun hy => hbound y ?_
    rwa [List.map_fst_zip (Nat.le_of_eq hlength)]
  unknownVariable {locals x} h hx := by
    have hbound := h.names x (List.mem_singleton_self x)
    rw [hx] at hbound
    cases hbound
  unknownFunction {locals x arguments} h hx := by
    have hbound := h.names x List.mem_cons_self
    rw [hx] at hbound
    cases hbound
  converter h x source target := hconverter _ h x source target
  fault h := h

end Scope

namespace Session

/-- **Closed terms meet no unbound names.** Let all names of a term be bound, and let all functions
be closed that occur in the literals of the term or in a value that is bound, at any depth. Then the
evaluation of the term does not fail because a name is not bound, unless the converter of units
reports such a fault. -/
theorem evaluateTerm_kind_ne_unbound (s : Session) {t : Term}
    (hnames : ∀ x ∈ t.identifiers, (s.environment.get? x).isSome)
    (hliterals : ∀ f ∈ t.functions, f.IsClosed s.environment.globals)
    (hbound : ∀ x v, s.environment.get? x = some v →
      ∀ f ∈ v.functions, f.IsClosed s.environment.globals)
    (hconverter : ∀ convert ∈ s.converter, ∀ x source target fault,
      convert x source target = .error fault → fault.kind ≠ .unbound) :
    ∀ fault, (s.evaluateTerm t).1 = .error fault → fault.kind ≠ .unbound := by
  have hclosed : s.scope.Closes .empty t :=
    { names := fun x hx => Scope.isSome_lookup? (.inr (hnames x (Term.mem_identifiers.2 hx)))
      functions := hliterals
      locals := Bindings.all_empty }
  have hinvariant := Scope.invariant_closes (s := s.scope) hbound
    fun convert hconvert x source target => by
      cases hresult : convert x source target with
      | ok y => trivial
      | error fault => exact hconverter convert hconvert x source target fault hresult
  exact fun fault => (ends_evaluateTerm hinvariant hclosed).of_error

/-- A function is chosen from two and called by another that it is passed to. Its result has no unit
that could be converted, which is no fault about names. -/
theorem evaluateTerm_kind_ne_unbound_passed :
    let inc : Definition := ⟨"inc", ["n"], .binary (.arith .add) (.var "n") (.literal (.ofInt 1))⟩
    let half : Definition := ⟨"half", ["n"], .binary (.arith .div) (.var "n") (.literal (.ofInt 2))⟩
    let twice : Definition := ⟨"twice", ["g", "x"], .call "g" [.call "g" [.var "x"]]⟩
    let s := (((start {}).bind "inc" (.function inc)).bind "twice" (.function twice)).bind
      "m" (.ofInt 1)
    let s := { s with converter := some (.ofTable [("m", "km", 0.001, 0.0)]) }
    let chosen : Term := .unary .conditional
      (.vector [.var "true", .literal (.function half), .var "inc"])
    let t : Term := .unary .conversion
      (.vector [.call "twice" [chosen, .literal (.ofInt 3)], .var "m", .var "m"])
    (s.evaluateTerm t).1.isOk = false ∧
      ∀ fault, (s.evaluateTerm t).1 = .error fault → fault.kind ≠ .unbound := by
  intro inc half twice s₀ s chosen t
  refine ⟨by decide +kernel, evaluateTerm_kind_ne_unbound s (by decide +kernel) (by decide +kernel)
    (Bindings.all_of_entries (by decide +kernel)) ?_⟩
  rintro _ ⟨⟩ x source target fault hfault
  unfold Converter.ofTable at hfault
  split at hfault
  · cases hfault
  · cases hfault
    exact nofun

end Session

end Abacus
