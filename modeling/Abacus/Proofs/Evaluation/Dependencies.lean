import Abacus.Proofs.Evaluation.Invariants
import Abacus.Proofs.Session.Coherence
import Abacus.Proofs.Value.Functions
import Mathlib.Data.Set.Basic

/-!
# What an evaluation depends on

A term depends on the names in it, and through the functions that these are bound to on the names in
their bodies. `Term.ReliesOn` says that a set of names holds all of them: the names of the term, and
those of the body of every function that occurs in the term or in what is bound to a name of the
set. Scopes that agree on such a set evaluate the term alike (`Scope.AgreesOn.eval_eq`).

Functions are values, so a call can reach a function that is bound to no name at all. The proof
keeps track of them: whatever value turns up, every function in it relies on names of the set alone
(`Value.ReliesOn`). Parameters come in front of the global bindings, but they are those of the call
at hand. Nothing that a caller has bound is visible in the body of a function that it calls, so the
same invariant holds of the parameters.

`Agrees` relates the two evaluations. They end with the same fault, or with the same value and that
keeps the invariant.
-/

namespace Abacus

/-! ### Computations that agree -/

/-- Two computations with the same outcome, of which `P` holds if it is no fault. -/
structure Agrees {α : Type} (P : α → Prop) (e e' : Except Fault α) : Prop where
  eq : e = e'
  of_ok : ∀ a, e = .ok a → P a

namespace Agrees

variable {α β : Type} {P : α → Prop} {Q : β → Prop}

theorem ok {a : α} (h : P a) : Agrees P (.ok a) (.ok a) :=
  ⟨rfl, fun _ ha => Except.ok.inj ha ▸ h⟩

theorem error (fault : Fault) : Agrees P (.error fault) (.error fault) := ⟨rfl, nofun⟩

/-- A computation agrees with itself if `P` holds of its outcome. -/
theorem self {e : Except Fault α} (h : ∀ a, e = .ok a → P a) : Agrees P e e := ⟨rfl, h⟩

theorem bind {e e' : Except Fault α} {f f' : α → Except Fault β} (h : Agrees P e e')
    (hf : ∀ a, P a → Agrees Q (f a) (f' a)) : Agrees Q (e >>= f) (e' >>= f') := by
  obtain ⟨rfl, hok⟩ := h
  cases e with
  | error fault => exact .error fault
  | ok a => exact hf a (hok a rfl)

end Agrees

/-! ### Names -/

namespace Term

theorem mem_insertName {x name : String} {xs : List String} :
    x ∈ insertName name xs ↔ x = name ∨ x ∈ xs := by
  induction xs with
  | nil => simp [insertName]
  | cons y ys ih =>
    simp only [insertName]
    split
    · simp
    · split
      · next h => simp [h]
      · simp only [List.mem_cons, ih]
        tauto

/-- Sorting the names of a term loses none of them. -/
theorem mem_identifiers {x : String} {t : Term} : x ∈ t.identifiers ↔ x ∈ t.names := by
  unfold identifiers
  induction t.names with
  | nil => simp
  | cons y ys ih => rw [List.foldr_cons, mem_insertName, ih, List.mem_cons]

theorem mem_namesOfElements {x : String} {ts : List Term} :
    x ∈ namesOfElements ts ↔ ∃ t ∈ ts, x ∈ t.names := by
  induction ts with
  | nil => simp [namesOfElements]
  | cons t ts ih => simp [namesOfElements, ih]

theorem mem_namesOfRows {x : String} {rows : List (List Term)} :
    x ∈ namesOfRows rows ↔ ∃ row ∈ rows, ∃ t ∈ row, x ∈ t.names := by
  induction rows with
  | nil => simp [namesOfRows]
  | cons row rows ih => simp [namesOfRows, mem_namesOfElements, ih]

end Term

variable {R : Set String}

/-- The functions in a list have no names in their bodies but those in `R`. -/
def FunctionsRelyOn (R : Set String) (fs : List Definition) : Prop :=
  ∀ f ∈ fs, ∀ x ∈ f.body.identifiers, x ∈ R

/-- The functions in a value have no names in their bodies but those in `R`. -/
def Value.ReliesOn (R : Set String) (v : Value) : Prop := FunctionsRelyOn R v.functions

/-- The names of a term lie in `R`, and so do those in the bodies of the functions in its literals.
-/
structure Term.NamesWithin (R : Set String) (t : Term) : Prop where
  names : ∀ x ∈ t.names, x ∈ R
  functions : FunctionsRelyOn R t.functions

/-- Values bound to names rely on names in `R`. -/
def Bindings.RelyOn (R : Set String) (b : Bindings) : Prop :=
  ∀ x v, b.get? x = some v → v.ReliesOn R

/-- **What a term depends on.** The set `R` holds the names in the term, and the names in the bodies
of all functions that occur in the term or in what is bound to a name of `R`. -/
structure Term.ReliesOn (t : Term) (globals : Bindings) (R : Set String) : Prop where
  names : ∀ x ∈ t.identifiers, x ∈ R
  functions : ∀ f ∈ t.functions, ∀ x ∈ f.body.identifiers, x ∈ R
  bound : ∀ y ∈ R, ∀ v, globals.get? y = some v →
    ∀ f ∈ v.functions, ∀ x ∈ f.body.identifiers, x ∈ R

/-- Whether a list of names holds all that a term depends on can be computed. -/
instance (t : Term) (globals : Bindings) (names : List String) :
    Decidable (t.ReliesOn globals {x | x ∈ names}) :=
  decidable_of_iff
    ((∀ x ∈ t.identifiers, x ∈ names) ∧ (∀ f ∈ t.functions, ∀ x ∈ f.body.identifiers, x ∈ names) ∧
      ∀ y ∈ names, ∀ v ∈ globals.get? y, ∀ f ∈ v.functions, ∀ x ∈ f.body.identifiers, x ∈ names)
    ⟨fun ⟨hnames, hfunctions, hbound⟩ => ⟨hnames, hfunctions, hbound⟩,
      fun ⟨hnames, hfunctions, hbound⟩ => ⟨hnames, hfunctions, hbound⟩⟩

theorem FunctionsRelyOn.mono {fs gs : List Definition} (h : FunctionsRelyOn R fs) (hsub : gs ⊆ fs) :
    FunctionsRelyOn R gs := fun f hf => h f (hsub hf)

namespace Value

theorem IsData.reliesOn {v : Value} (h : v.IsData) : v.ReliesOn R := by
  intro f hf
  rw [show v.functions = [] from h] at hf
  cases hf

theorem reliesOn_vector {vs : List Value} (h : ∀ v ∈ vs, v.ReliesOn R) :
    (vector vs).ReliesOn R := by
  intro f hf
  obtain ⟨v, hv, hf⟩ := mem_functions_vector.1 hf
  exact h v hv f hf

theorem reliesOn_matrix {rows : List (List Value)} (h : ∀ row ∈ rows, ∀ v ∈ row, v.ReliesOn R) :
    (matrix rows).ReliesOn R := by
  intro f hf
  obtain ⟨row, hrow, v, hv, hf⟩ := mem_functions_matrix.1 hf
  exact h row hrow v hv f hf

/-- The body of a function that relies on `R` has its names within `R`. -/
theorem ReliesOn.body {f : Definition} (h : (function f).ReliesOn R) : f.body.NamesWithin R := by
  obtain ⟨name, parameters, body⟩ := f
  refine ⟨fun x hx => ?_, fun g hg => ?_⟩
  · exact h _ List.mem_cons_self x (Term.mem_identifiers.2 hx)
  · exact h g (List.mem_cons_of_mem _ hg)

end Value

namespace Term

theorem names_subset_of_mem_parts {t u : Term} (h : u ∈ t.parts) : u.names ⊆ t.names := by
  intro x hx
  cases t with
  | literal v => cases h
  | var y => cases h
  | unary op t => exact List.mem_singleton.1 h ▸ hx
  | binary op left right =>
    obtain rfl | h := List.mem_cons.1 h
    · exact List.mem_append_left _ hx
    · exact List.mem_append_right _ (List.mem_singleton.1 h ▸ hx)
  | vector ts => exact mem_namesOfElements.2 ⟨u, h, hx⟩
  | matrix rows =>
    obtain ⟨row, hrow, hu⟩ := List.mem_flatten.1 h
    exact mem_namesOfRows.2 ⟨row, hrow, u, hu, hx⟩
  | call name arguments => exact List.mem_cons_of_mem _ (mem_namesOfElements.2 ⟨u, h, hx⟩)
  | assign name t => exact List.mem_singleton.1 h ▸ hx

theorem functions_subset_of_mem_parts {t u : Term} (h : u ∈ t.parts) :
    u.functions ⊆ t.functions := by
  intro f hf
  cases t with
  | literal v => cases h
  | var y => cases h
  | unary op t => exact List.mem_singleton.1 h ▸ hf
  | binary op left right =>
    obtain rfl | h := List.mem_cons.1 h
    · exact List.mem_append_left _ hf
    · exact List.mem_append_right _ (List.mem_singleton.1 h ▸ hf)
  | vector ts => exact mem_functionsOfElements.2 ⟨u, h, hf⟩
  | matrix rows =>
    obtain ⟨row, hrow, hu⟩ := List.mem_flatten.1 h
    exact mem_functionsOfRows.2 ⟨row, hrow, u, hu, hf⟩
  | call name arguments => exact mem_functionsOfElements.2 ⟨u, h, hf⟩
  | assign name t => exact List.mem_singleton.1 h ▸ hf

/-- The parts of a term have their names where the term has them. -/
theorem NamesWithin.part {t u : Term} (h : t.NamesWithin R) (hu : u ∈ t.parts) :
    u.NamesWithin R :=
  ⟨fun x hx => h.names x (names_subset_of_mem_parts hu hx),
    fun f hf => h.functions f (functions_subset_of_mem_parts hu hf)⟩

end Term

namespace Bindings

theorem relyOn_empty : empty.RelyOn R := all_empty

/-- Parameters that are bound to values which rely on `R`. -/
theorem relyOn_ofList {pairs : List (String × Value)} (h : ∀ p ∈ pairs, p.2.ReliesOn R) :
    (ofList pairs).RelyOn R := (ofList_spec h).1

end Bindings

/-! ### Scopes that agree -/

namespace Scope

/-- Scopes that differ at most in what they bind to names outside of `R`, and whose bindings of
names in `R` rely on `R`. -/
structure AgreesOn (R : Set String) (s s' : Scope) : Prop where
  lookup : ∀ x ∈ R, s.globals.get? x = s'.globals.get? x
  bound : ∀ x ∈ R, ∀ v, s.globals.get? x = some v → v.ReliesOn R
  angleUnit : s.angleUnit = s'.angleUnit
  settings : s.settings = s'.settings
  converter : s.converter = s'.converter

/-- What two scopes do in a call agrees for a function and parameters that rely on `R`. -/
def EntersAgree (R : Set String) : Option Enter → Option Enter → Prop
  | none, none => True
  | some g, some g' => ∀ f parameters, (Value.function f).ReliesOn R → parameters.RelyOn R →
      Agrees (Value.ReliesOn R) (g f parameters) (g' f parameters)
  | _, _ => False

section

variable {s s' : Scope} {enter enter' : Option Enter} {locals : Bindings}

/-- Two scopes that agree can both call functions, or neither can. -/
theorem EntersAgree.none_or_some (h : EntersAgree R enter enter') :
    enter = none ∧ enter' = none ∨ ∃ g g', enter = some g ∧ enter' = some g' ∧
      ∀ f parameters, (Value.function f).ReliesOn R → parameters.RelyOn R →
        Agrees (Value.ReliesOn R) (g f parameters) (g' f parameters) := by
  cases enter with
  | none =>
    cases enter' with
    | none => exact .inl ⟨rfl, rfl⟩
    | some g' => cases h
  | some g =>
    cases enter' with
    | none => cases h
    | some g' => exact .inr ⟨g, g', rfl, rfl, h⟩

theorem AgreesOn.lookup? (h : s.AgreesOn R s') {x : String} (hx : x ∈ R) :
    s.lookup? locals x = s'.lookup? locals x := by
  simp only [Scope.lookup?, h.lookup x hx]

theorem AgreesOn.reliesOn_of_lookup? (h : s.AgreesOn R s') (hlocals : locals.RelyOn R) {x : String}
    (hx : x ∈ R) {v : Value} (hv : s.lookup? locals x = some v) : v.ReliesOn R := by
  unfold Scope.lookup? at hv
  split at hv
  · next hlocal =>
    cases hv
    exact hlocals x _ hlocal
  · exact h.bound x hx v hv

/-- A conversion yields a value without functions. -/
theorem isData_convert {f : Converter} {source target : String} {v w : Value}
    (h : Scope.convert f source target v = .ok w) : w.IsData := by
  have hnone := Value.hereditary_functions fun _ => False
  have hends : Ends (fun v => ∀ f ∈ v.functions, False) (fun _ => True)
      (Scope.convert f source target v) :=
    ends_convert hnone (fun _ _ => trivial) (fun _ _ _ => Ends.of_true _) source target v
  exact Value.isData_iff.2 (hends.of_ok h)

/-- Lists of terms agree if the terms do. -/
theorem agrees_evalElements {ts : List Term}
    (h : ∀ t ∈ ts, Agrees (Value.ReliesOn R) (s.evalThen enter locals t .ok)
      (s'.evalThen enter' locals t .ok)) :
    Agrees (fun vs => ∀ v ∈ vs, v.ReliesOn R) (s.evalElements enter locals ts)
      (s'.evalElements enter' locals ts) := by
  induction ts with
  | nil => exact .ok nofun
  | cons t ts ih =>
    obtain ⟨ht, hts⟩ := List.forall_mem_cons.1 h
    exact ht.bind fun v hv => (ih hts).bind fun vs hvs =>
      .ok (List.forall_mem_cons.2 ⟨hv, hvs⟩)

theorem agrees_evalRows {rows : List (List Term)}
    (h : ∀ row ∈ rows, ∀ t ∈ row, Agrees (Value.ReliesOn R) (s.evalThen enter locals t .ok)
      (s'.evalThen enter' locals t .ok)) :
    Agrees (fun rows => ∀ row ∈ rows, ∀ v ∈ row, v.ReliesOn R) (s.evalRows enter locals rows)
      (s'.evalRows enter' locals rows) := by
  induction rows with
  | nil => exact .ok nofun
  | cons row rows ih =>
    obtain ⟨hrow, hrows⟩ := List.forall_mem_cons.1 h
    exact (agrees_evalElements hrow).bind fun vs hvs => (ih hrows).bind fun rest hrest =>
      .ok (List.forall_mem_cons.2 ⟨hvs, hrest⟩)

/-- **Scopes that agree evaluate alike.** The induction is on the term. A call leaves the term, and
what it does is what `henter` is about. -/
theorem agrees_evalThen (h : s.AgreesOn R s') (henter : EntersAgree R enter enter')
    (hlocals : locals.RelyOn R) (t : Term) (ht : t.NamesWithin R) :
    Agrees (Value.ReliesOn R) (s.evalThen enter locals t .ok)
      (s'.evalThen enter' locals t .ok) := by
  induction t using Term.induction with
  | literal v =>
    simp only [evalThen]
    exact .ok ht.functions
  | var x =>
    have hx : x ∈ R := ht.names x (List.mem_singleton_self x)
    simp only [evalThen, ← h.lookup? hx]
    cases hv : s.lookup? locals x with
    | none => exact .error _
    | some v => exact .ok (h.reliesOn_of_lookup? hlocals hx hv)
  | conditional condition yes no ihcondition ihyes ihno =>
    have hparts : ∀ u ∈ [condition, yes, no], u.NamesWithin R := fun u hu =>
      (ht.part (List.mem_singleton_self _)).part hu
    have hyes := ihyes (hparts yes (by simp))
    have hno := ihno (hparts no (by simp))
    simp only [evalThen]
    refine (ihcondition (hparts condition (by simp))).bind fun c _ => ?_
    refine (Agrees.self (P := fun _ => True) fun _ _ => trivial).bind fun b _ => ?_
    cases b with
    | true => exact hyes
    | false => exact hno
  | conversion operand source target ih =>
    have hoperand := ih ((ht.part (List.mem_singleton_self _)).part List.mem_cons_self)
    simp only [evalThen, ← h.converter]
    cases s.converter with
    | none => exact .error _
    | some f =>
      refine hoperand.bind fun v _ => ?_
      exact (Agrees.self fun w hw => (isData_convert hw).reliesOn).bind fun w hw => .ok hw
  | conversionError elements hform =>
    rw [evalThen_conversion_error s enter locals hform,
      evalThen_conversion_error s' enter' locals hform]
    exact .error _
  | unary op operand hconditional hconversion ih =>
    rw [evalThen_unary s enter locals .ok hconditional hconversion,
      evalThen_unary s' enter' locals .ok hconditional hconversion]
    have hcontext : s'.operationContext = s.operationContext := by
      simp only [operationContext, h.angleUnit, h.settings]
    rw [hcontext]
    refine (ih (ht.part (List.mem_singleton_self _))).bind fun v hv => ?_
    refine (Agrees.self fun w hw => ?_).bind fun w hw => .ok hw
    exact FunctionsRelyOn.mono hv (UnaryOp.functions_apply hw)
  | binary op left right ihleft ihright =>
    rw [evalThen_binary, evalThen_binary]
    refine (ihleft (ht.part (by simp))).bind fun v _ => ?_
    refine (ihright (ht.part (by simp))).bind fun w _ => ?_
    exact (Agrees.self fun u hu => (BinaryOp.isData_apply hu).reliesOn).bind fun u hu => .ok hu
  | vector elements ih =>
    simp only [evalThen]
    have helements := agrees_evalElements fun t hmem => ih t hmem (ht.part hmem)
    exact helements.bind fun vs hvs => .ok (Value.reliesOn_vector hvs)
  | matrix rows ih =>
    simp only [evalThen]
    have hrows := agrees_evalRows fun row hrow t hmem =>
      ih row hrow t hmem (ht.part (List.mem_flatten_of_mem hrow hmem))
    exact hrows.bind fun vss hvss => .ok (Value.reliesOn_matrix hvss)
  | call name arguments ih =>
    have hname : name ∈ R := ht.names name List.mem_cons_self
    have harguments := agrees_evalElements fun t hmem => ih t hmem (ht.part hmem)
    simp only [evalThen, ← h.lookup? hname, ← h.settings]
    split
    · exact .error _
    · next f hf =>
      split
      · exact .error _
      · -- the function was found under a name of `R`, so that it relies on `R`
        have hfunction := h.reliesOn_of_lookup? hlocals hname hf
        rcases henter.none_or_some with ⟨hnone, hnone'⟩ | ⟨g, g', hg, hg', hcall⟩
        · rw [hnone, hnone']
          exact .error _
        · simp only [hg, hg'] at harguments ⊢
          refine harguments.bind fun vs hvs => ?_
          refine (hcall f _ hfunction (Bindings.relyOn_ofList fun p hp => ?_)).bind
            fun v hv => .ok hv
          exact hvs _ (List.of_mem_zip hp).2
    · exact .error _
  | assign name t =>
    simp only [evalThen]
    exact .error _

/-- Evaluation within any number of calls agrees. The induction is on that number: the body of a
function that relies on `R` has its names within `R`, and sees no more than its parameters and the
global bindings. -/
theorem agrees_evalWithin (h : s.AgreesOn R s') (calls : Nat) (hlocals : locals.RelyOn R) {t : Term}
    (ht : t.NamesWithin R) :
    Agrees (Value.ReliesOn R) (s.evalWithin calls locals t) (s'.evalWithin calls locals t) := by
  induction calls generalizing locals t with
  | zero =>
    have hnone : EntersAgree R none none := trivial
    exact agrees_evalThen h hnone hlocals t ht
  | succ calls ih =>
    refine agrees_evalThen h ?_ hlocals t ht
    intro f parameters hf hparameters
    exact ih hparameters hf.body

/-- **Evaluation depends on no other names.** Terms with their names within `R` have the same value
in scopes that agree on `R`, or fail with the same fault. -/
theorem AgreesOn.eval_eq (h : s.AgreesOn R s') {t : Term} (ht : t.NamesWithin R) :
    s.eval t = s'.eval t := by
  unfold eval
  rw [← h.settings]
  exact (agrees_evalWithin h _ Bindings.relyOn_empty ht).eq

end

end Scope

end Abacus
