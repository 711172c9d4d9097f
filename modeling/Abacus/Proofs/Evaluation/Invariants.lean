import Abacus.Proofs.Evaluation.Continuation
import Abacus.Proofs.Value.Hereditary
import Abacus.Session

/-!
# Invariants of an evaluation

An evaluation leaves the term that it starts with: a call goes on with the body of a function, in
which the parameters are all that is bound besides the global bindings. What holds of every term
that an evaluation gets to, with what its names are bound to there, and of every value that it
comes across, is an invariant of the scope (`Scope.Invariant`). There are two conditions with some
content. The value of a name that is looked up must have the property, and so must the body of a
function that is called under its parameters. Operations keep the property because it is hereditary.

From an invariant follow the property of the value or of the fault in which an evaluation ends
(`Scope.Invariant.ends_evalWithin`) and the one of every term that the evaluation gets to
(`Scope.Invariant.of_reaches`).
-/

namespace Abacus

/-- The terms that a term is made of. -/
@[simp] def Term.parts : Term → List Term
  | .literal _ | .var _ => []
  | .unary _ operand => [operand]
  | .binary _ left right => [left, right]
  | .vector elements => elements
  | .matrix rows => rows.flatten
  | .call _ arguments => arguments
  | .assign _ value => [value]

/-! ### What is bound -/

namespace Bindings

/-- All values that are bound have a property. -/
def All (P : Value → Prop) (b : Bindings) : Prop := ∀ x v, b.get? x = some v → P v

variable {P : Value → Prop}

theorem all_empty : empty.All P := nofun

theorem All.insert {b : Bindings} (h : b.All P) (name : String) {v : Value} (hv : P v) :
    (b.insert name v).All P := by
  intro x u hu
  rw [get?_insert] at hu
  split at hu
  · cases hu
    exact hv
  · exact h x u hu

theorem All.erase {b : Bindings} (h : b.All P) (name : String) : (b.erase name).All P := by
  intro x u hu
  rw [get?_erase] at hu
  split at hu
  · cases hu
  · exact h x u hu

/-- A property of all entries is one of all that is bound. -/
theorem all_of_entries {b : Bindings} (h : ∀ e ∈ b.entries, P e.2) :
    b.All P := by
  obtain ⟨entries⟩ := b
  intro x v hv
  induction entries with
  | nil => cases hv
  | cons e entries ih =>
    obtain ⟨he, hentries⟩ := List.forall_mem_cons.1 h
    rw [get?, findEntry] at hv
    split at hv
    · cases hv
      exact he
    · exact ih hentries hv

/-- Names that are bound one after the other are bound to values of the list, and all of them are
bound. -/
theorem ofList_spec {pairs : List (String × Value)} (h : ∀ p ∈ pairs, P p.2) :
    (ofList pairs).All P ∧ ∀ x ∈ pairs.map Prod.fst, ((ofList pairs).get? x).isSome := by
  suffices hfold : ∀ b : Bindings, b.All P →
      (pairs.foldl (fun b p => b.insert p.1 p.2) b).All P ∧
        ∀ x, x ∈ pairs.map Prod.fst ∨ (b.get? x).isSome →
          ((pairs.foldl (fun b p => b.insert p.1 p.2) b).get? x).isSome by
    obtain ⟨hall, hbound⟩ := hfold empty all_empty
    exact ⟨hall, fun x hx => hbound x (.inl hx)⟩
  induction pairs with
  | nil => exact fun b hb => ⟨hb, fun x hx => hx.resolve_left nofun⟩
  | cons p pairs ih =>
    obtain ⟨hp, hpairs⟩ := List.forall_mem_cons.1 h
    intro b hb
    obtain ⟨hall, hbound⟩ := ih hpairs _ (hb.insert p.1 hp)
    refine ⟨hall, fun x hx => hbound x ?_⟩
    rw [get?_insert]
    grind

end Bindings

/-! ### Terms that an evaluation gets to -/

namespace Scope

variable (s : Scope)

/-- What the evaluation of a term gets to. From `calls`, `locals` and `t`, which are the nested
calls that are left, the parameters and the term at the start, it gets to the parts of a term and to
the body of a function that is called on the values of the arguments. -/
inductive Reaches (calls : Nat) (locals : Bindings) (t : Term) : Nat → Bindings → Term → Prop
  | refl : Reaches calls locals t calls locals t
  | part {calls' : Nat} {locals' : Bindings} {u part : Term}
      (h : Reaches calls locals t calls' locals' u) (hpart : part ∈ u.parts) :
      Reaches calls locals t calls' locals' part
  | body {calls' : Nat} {locals' : Bindings} {x : String} {arguments : List Term}
      {f : Definition} {vs : List Value}
      (h : Reaches calls locals t (calls' + 1) locals' (.call x arguments))
      (hf : s.lookup? locals' x = some (.function f))
      (hlength : f.parameters.length = arguments.length)
      (hvs : List.Forall₂ (fun a v => s.evalWithin (calls' + 1) locals' a = .ok v) arguments vs) :
      Reaches calls locals t calls' (.ofList (f.parameters.zip vs)) f.body

/-- An invariant of evaluations: `T` of terms with what their names are bound to, `P` of values and
`Q` of faults. -/
structure Invariant (T : Bindings → Term → Prop) (P : Value → Prop) (Q : Fault → Prop) : Prop where
  hereditary : Value.Hereditary P
  part {locals : Bindings} {t : Term} (h : T locals t) : ∀ u ∈ t.parts, T locals u
  literal {locals : Bindings} {v : Value} (h : T locals (.literal v)) : P v
  lookup {locals : Bindings} {x : String} {v : Value} (h : T locals (.var x))
    (hv : s.lookup? locals x = some v) : P v
  body {locals : Bindings} {x : String} {arguments : List Term} {f : Definition} {vs : List Value}
    (h : T locals (.call x arguments)) (hf : s.lookup? locals x = some (.function f))
    (hlength : f.parameters.length = vs.length) (hvs : ∀ v ∈ vs, P v) :
    T (.ofList (f.parameters.zip vs)) f.body
  unknownVariable {locals : Bindings} {x : String} (h : T locals (.var x))
    (hx : s.lookup? locals x = none) : Q (.unknownVariable x)
  unknownFunction {locals : Bindings} {x : String} {arguments : List Term}
    (h : T locals (.call x arguments)) (hx : s.lookup? locals x = none) : Q (.unknownFunction x)
  converter {convert : Converter} (h : s.converter = some convert) (x : Float)
    (source target : String) : Ends (fun _ => True) Q (convert x source target)
  fault {fault : Fault} (h : fault.NotUnbound) : Q fault

variable {s} in
/-- Parameters and global bindings are all that is looked up. -/
theorem of_lookup? {locals : Bindings} {P : Value → Prop} (hlocals : locals.All P)
    (hglobals : s.globals.All P) {x : String} {v : Value} (h : s.lookup? locals x = some v) :
    P v := by
  unfold lookup? at h
  split at h
  · next hx =>
    cases h
    exact hlocals x _ hx
  · exact hglobals x v h

/-- A conversion yields doubles in the shape of what it converts. -/
theorem ends_convert {P : Value → Prop} {Q : Fault → Prop} (hP : Value.Hereditary P)
    (hQ : ∀ fault : Fault, fault.NotUnbound → Q fault) {convert : Converter}
    (hconvert : ∀ x source target, Ends (fun _ => True) Q (convert x source target))
    (source target : String) (v : Value) : Ends P Q (Scope.convert convert source target v) := by
  refine Value.hereditary_true.ends_mapLeaves hP hQ (fun x _ => ?_) trivial
  refine (x.ends_toNumber.imp (fun _ _ => trivial) hQ).bind fun a _ => ?_
  exact (hconvert a source target).bind fun b _ => hP.double b

namespace Invariant

variable {s} {T : Bindings → Term → Prop} {P : Value → Prop} {Q : Fault → Prop}
  {enter : Option Enter} {locals : Bindings}

/-- An operation that ends well for any invariant. -/
theorem of_notUnbound (h : s.Invariant T P Q) {α : Type} {S : α → Prop} {e : Except Fault α}
    (he : Ends S Fault.NotUnbound e) : Ends S Q e :=
  he.imp (fun _ => id) fun _ => h.fault

theorem ends_evalElements {ts : List Term}
    (h : ∀ t ∈ ts, Ends P Q (s.evalThen enter locals t .ok)) :
    Ends (fun vs => vs.length = ts.length ∧ ∀ v ∈ vs, P v) Q (s.evalElements enter locals ts) := by
  induction ts with
  | nil => exact ⟨rfl, List.forall_mem_nil _⟩
  | cons t ts ih =>
    obtain ⟨ht, hts⟩ := List.forall_mem_cons.1 h
    exact ht.bind fun v hv => (ih hts).bind fun vs hvs =>
      ⟨congrArg (· + 1) hvs.1, List.forall_mem_cons.2 ⟨hv, hvs.2⟩⟩

theorem ends_evalRows {rows : List (List Term)}
    (h : ∀ row ∈ rows, ∀ t ∈ row, Ends P Q (s.evalThen enter locals t .ok)) :
    Ends (fun rows => ∀ row ∈ rows, ∀ v ∈ row, P v) Q (s.evalRows enter locals rows) := by
  induction rows with
  | nil => exact List.forall_mem_nil _
  | cons row rows ih =>
    obtain ⟨hrow, hrows⟩ := List.forall_mem_cons.1 h
    exact (ends_evalElements hrow).bind fun vs hvs => (ih hrows).bind fun rest hrest =>
      List.forall_mem_cons.2 ⟨hvs.2, hrest⟩

/-- The induction on the term. What is called may be defined anywhere, so that what calls do is
given. -/
theorem ends_evalThen (h : s.Invariant T P Q)
    (hcall : ∀ call ∈ enter, ∀ f parameters, T parameters f.body → Ends P Q (call f parameters))
    (t : Term) (ht : T locals t) : Ends P Q (s.evalThen enter locals t .ok) := by
  induction t using Term.induction with
  | literal v => exact h.literal ht
  | var x =>
    simp only [evalThen]
    cases hx : s.lookup? locals x with
    | none => exact h.unknownVariable ht hx
    | some v => exact h.lookup ht hx
  | conditional condition yes no ihcondition ihyes ihno =>
    have hparts := h.part (h.part ht (.vector [condition, yes, no]) (by simp))
    have hyes := ihyes (hparts yes (by simp))
    have hno := ihno (hparts no (by simp))
    simp only [evalThen]
    refine (ihcondition (hparts condition (by simp))).bind fun c _ => ?_
    refine (h.of_notUnbound c.ends_toBool).bind fun b _ => ?_
    cases b with
    | true => exact hyes
    | false => exact hno
  | conversion operand source target ih =>
    have hlist := h.part ht (.vector [operand, .var source, .var target]) (by simp)
    have hoperand := ih (h.part hlist operand (by simp))
    simp only [evalThen]
    cases hconverter : s.converter with
    | none => exact h.fault (by simp [Fault.kind])
    | some convert =>
      refine hoperand.bind fun v _ => ?_
      exact (ends_convert h.hereditary (fun _ => h.fault) (h.converter hconverter) _ _ v).bind
        fun w hw => hw
  | conversionError elements hform =>
    rw [evalThen_conversion_error _ _ _ hform]
    exact h.fault (by simp [Fault.kind])
  | unary op operand hconditional hconversion ih =>
    rw [evalThen_unary _ _ _ .ok hconditional hconversion]
    refine (ih (h.part ht operand (by simp))).bind fun v hv => ?_
    exact (h.of_notUnbound (op.ends_apply h.hereditary _ hv)).bind fun w hw => hw
  | binary op left right ihleft ihright =>
    rw [evalThen_binary]
    refine (ihleft (h.part ht left (by simp))).bind fun v _ => ?_
    refine (ihright (h.part ht right (by simp))).bind fun w _ => ?_
    exact (h.of_notUnbound (op.ends_apply h.hereditary v w)).bind fun u hu => hu
  | vector elements ih =>
    simp only [evalThen]
    refine (ends_evalElements fun u hu => ih u hu (h.part ht u hu)).bind fun vs hvs => ?_
    exact h.hereditary.vector.2 hvs.2
  | matrix rows ih =>
    simp only [evalThen]
    refine (ends_evalRows fun row hrow u hu => ih row hrow u hu (h.part ht u ?_)).bind
      fun vss hvss => h.hereditary.matrix.2 hvss
    exact List.mem_flatten_of_mem hrow hu
  | call name arguments ih =>
    have harguments := ends_evalElements fun u hu => ih u hu (h.part ht u hu)
    simp only [evalThen]
    split
    · next hnone => exact h.unknownFunction ht hnone
    · next f hf =>
      split
      · exact h.fault (by simp [Fault.kind])
      · next hlength =>
        cases enter with
        | none => exact h.fault (by simp [Fault.kind])
        | some call =>
          -- the arguments have the property, so that the body has it under its parameters
          refine harguments.bind fun vs hvs => ?_
          have hbody := h.body ht hf ((not_not.1 hlength).trans hvs.1.symm) hvs.2
          exact (hcall call rfl f _ hbody).bind fun v hv => hv
    · exact h.fault (by simp [Fault.kind])
  | assign name t => exact h.fault (by simp [Fault.kind])

/-- **An evaluation keeps an invariant.** The induction is on the number of calls that are left: a
function is entered with one call less. -/
theorem ends_evalWithin (h : s.Invariant T P Q) (calls : Nat) {t : Term} (ht : T locals t) :
    Ends P Q (s.evalWithin calls locals t) := by
  induction calls generalizing locals t with
  | zero =>
    refine h.ends_evalThen (fun call hcall => ?_) t ht
    cases hcall
  | succ calls ih =>
    refine h.ends_evalThen (fun call hcall f parameters hbody => ?_) t ht
    cases hcall
    exact ih hbody

theorem forall_values (h : s.Invariant T P Q) {calls : Nat} {arguments : List Term}
    {vs : List Value} (harguments : ∀ a ∈ arguments, T locals a)
    (hvs : List.Forall₂ (fun a v => s.evalWithin calls locals a = .ok v) arguments vs) :
    ∀ v ∈ vs, P v := by
  induction hvs with
  | nil => exact List.forall_mem_nil _
  | cons hvalue _ ih =>
    obtain ⟨ha, hrest⟩ := List.forall_mem_cons.1 harguments
    exact List.forall_mem_cons.2 ⟨(h.ends_evalWithin calls ha).of_ok hvalue, ih hrest⟩

/-- **An invariant holds of whatever an evaluation gets to.** -/
theorem of_reaches (h : s.Invariant T P Q) {calls calls' : Nat} {locals' : Bindings} {t u : Term}
    (ht : T locals t) (hreaches : s.Reaches calls locals t calls' locals' u) : T locals' u := by
  induction hreaches with
  | refl => exact ht
  | part _ hpart ih => exact h.part ih _ hpart
  | body _ hf hlength hvs ih =>
    exact h.body ih hf (hlength.trans hvs.length_eq) (h.forall_values (h.part ih) hvs)

end Invariant

end Scope

/-! ### Sessions -/

namespace Session

variable {s : Session} {T : Bindings → Term → Prop} {P : Value → Prop} {Q : Fault → Prop}

theorem ends_valueOf (h : s.scope.Invariant T P Q) {t : Term} (ht : T .empty t) :
    Ends (fun r => P r.2) Q (s.valueOf t) := by
  unfold valueOf
  split
  · -- a function that is assigned is not evaluated
    exact h.literal (h.part ht _ (List.mem_singleton_self _))
  · exact (h.ends_evalWithin _ (h.part ht _ (List.mem_singleton_self _))).bind fun v hv => hv
  · exact (h.ends_evalWithin _ ht).bind fun v hv => hv

theorem ends_evaluateTerm (h : s.scope.Invariant T P Q) {t : Term} (ht : T .empty t) :
    Ends P Q (s.evaluateTerm t).1 := by
  have hends := ends_valueOf h ht
  unfold evaluateTerm
  split
  · next hvalue => exact hends.of_ok hvalue
  · next hfault => exact hends.of_error hfault

end Session

end Abacus
