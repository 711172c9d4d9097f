import Abacus.Proofs.Evaluation.Continuation
import Abacus.Proofs.Text.Legibility
import Abacus.Session

/-!
# Lists of literals as literals

A vector or a matrix whose entries are all literals is a literal where terms are built from texts.
A term that comes from elsewhere may have it as a list of terms. `Term.fold` builds such a term
again from the bottom up, and nothing changes but the wording of faults: it has the same value, or a
fault of the same kind, and a session goes on in the same state (`Session.evaluateTerm_fold`).

A choice and a conversion look into a list of terms but not into a literal, so folding exchanges the
way in which they are evaluated. A choice among three literals is made by the operator on values,
and comes out the same (`Scope.evalThen_conditional_ofElements`). A conversion of literals is a
fault either way: the list lacks the names of the units, and the value is no list. These two faults
are worded differently, hence faults are compared by their kind (`SameKind`).

Bodies of functions are left as they are. A call thus enters the same body on both sides, and the
induction on the term is all that is needed.
-/

namespace Abacus

/-! ### Faults of one kind -/

/-- Two computations with the same value or with faults of the same kind. -/
def SameKind {α : Type} (e e' : Except Fault α) : Prop :=
  e.mapError Fault.kind = e'.mapError Fault.kind

namespace SameKind

variable {α β : Type}

theorem refl (e : Except Fault α) : SameKind e e := rfl

/-- Either both computations end with the same value, or both with faults of the same kind. -/
theorem ok_or_error {e e' : Except Fault α} (h : SameKind e e') :
    (∃ a, e = .ok a ∧ e' = .ok a) ∨
      ∃ fault fault', e = .error fault ∧ e' = .error fault' ∧ fault.kind = fault'.kind := by
  cases e with
  | ok a =>
    cases e' with
    | ok b => exact .inl ⟨a, rfl, congrArg _ (Except.ok.inj h).symm⟩
    | error fault' => cases h
  | error fault =>
    cases e' with
    | ok b => cases h
    | error fault' => exact .inr ⟨fault, fault', rfl, rfl, Except.error.inj h⟩

theorem bind {e e' : Except Fault α} {f f' : α → Except Fault β} (h : SameKind e e')
    (hf : ∀ a, SameKind (f a) (f' a)) : SameKind (e >>= f) (e' >>= f') := by
  obtain ⟨a, rfl, rfl⟩ | ⟨fault, fault', rfl, rfl, hkind⟩ := h.ok_or_error
  · exact hf a
  · exact congrArg Except.error hkind

end SameKind

/-! ### Folding -/

namespace Term

mutual

/-- The term built again from the bottom up, where lists of literals become literals. -/
def fold : Term → Term
  | literal v => literal v
  | var x => var x
  | unary op operand => unary op (fold operand)
  | binary op left right => binary op (fold left) (fold right)
  | vector elements => ofElements (foldElements elements)
  | matrix rows => ofRows (foldRows rows)
  | call name arguments => call name (foldElements arguments)
  | assign name value => assign name (fold value)

/-- The terms of a list, each built again. -/
def foldElements : List Term → List Term
  | [] => []
  | t :: ts => fold t :: foldElements ts

/-- The terms in rows, each built again. -/
def foldRows : List (List Term) → List (List Term)
  | [] => []
  | row :: rows => foldElements row :: foldRows rows

end

theorem foldElements_eq_map (ts : List Term) : foldElements ts = ts.map fold := by
  induction ts with
  | nil => rfl
  | cons t ts ih => rw [foldElements, ih, List.map_cons]

theorem foldRows_eq_map (rows : List (List Term)) : foldRows rows = rows.map (List.map fold) := by
  induction rows with
  | nil => rfl
  | cons row rows ih => rw [foldRows, ih, foldElements_eq_map, List.map_cons]

theorem ofElements_ne {t : Term} (hliteral : ∀ vs, t ≠ literal (.vector vs))
    (hvector : ∀ ts, t ≠ vector ts) (ts : List Term) : ofElements ts ≠ t := by
  rcases ofElements_cases ts with ⟨vs, -, heq⟩ | ⟨-, heq⟩ <;> rw [heq]
  · exact (hliteral vs).symm
  · exact (hvector ts).symm

theorem ofRows_ne {t : Term} (hliteral : ∀ rows, t ≠ literal (.matrix rows))
    (hmatrix : ∀ rows, t ≠ matrix rows) (rows : List (List Term)) : ofRows rows ≠ t := by
  rcases ofRows_cases rows with ⟨vss, -, heq⟩ | heq <;> rw [heq]
  · exact (hliteral vss).symm
  · exact (hmatrix rows).symm

/-- Only a vector is folded to a vector, element by element. -/
theorem eq_vector_of_fold {t : Term} {ts : List Term} (h : t.fold = vector ts) :
    ∃ elements, t = vector elements ∧ ts = elements.map fold := by
  cases t with
  | vector elements =>
    rw [fold, foldElements_eq_map] at h
    exact ⟨elements, rfl, (eq_of_ofElements_eq_vector h).symm⟩
  | matrix rows => exact absurd h (ofRows_ne (by simp) (by simp) _)
  | _ => cases h

/-- Names are not made by folding. -/
theorem eq_var_of_fold {t : Term} {x : String} (h : t.fold = var x) : t = var x := by
  cases t with
  | var y => exact h
  | vector elements => exact absurd h (ofElements_ne (by simp) (by simp) _)
  | matrix rows => exact absurd h (ofRows_ne (by simp) (by simp) _)
  | _ => cases h

/-- Functions are not made by folding. -/
theorem eq_function_of_fold {t : Term} {f : Definition} (h : t.fold = literal (.function f)) :
    t = literal (.function f) := by
  cases t with
  | literal v => exact h
  | vector elements => exact absurd h (ofElements_ne (by simp) (by simp) _)
  | matrix rows => exact absurd h (ofRows_ne (by simp) (by simp) _)
  | _ => cases h

/-- Assignments are not made by folding. -/
theorem eq_assign_of_fold {t u : Term} {name : String} (h : t.fold = assign name u) :
    ∃ value, t = assign name value := by
  cases t with
  | assign x value =>
    cases h
    exact ⟨value, rfl⟩
  | vector elements => exact absurd h (ofElements_ne (by simp) (by simp) _)
  | matrix rows => exact absurd h (ofRows_ne (by simp) (by simp) _)
  | _ => cases h

/-- Terms of the form that texts are read into are folded already. -/
theorem IsParsed.fold_eq {t : Term} (h : t.IsParsed) : t.fold = t := by
  induction h with
  | number hv => rfl
  | var hx => rfl
  | call hx _ ih => rw [fold, foldElements_eq_map, List.map_congr_left ih, List.map_id']
  | unary op _ ih => rw [fold, ih]
  | binary op _ _ ihs iht => rw [fold, ihs, iht]
  | @elements es _ ih =>
    rcases ofElements_cases es with ⟨vs, -, heq⟩ | ⟨-, heq⟩
    · rw [heq, fold]
    · rw [heq, fold, foldElements_eq_map, List.map_congr_left ih, List.map_id', heq]
  | @rows rows _ _ _ _ ih =>
    have hrows : rows.map (List.map fold) = rows := by
      have hrow : ∀ row ∈ rows, row.map fold = row := fun row hrow => by
        rw [List.map_congr_left (ih row hrow), List.map_id']
      rw [List.map_congr_left hrow, List.map_id']
    rcases ofRows_cases rows with ⟨vss, -, heq⟩ | heq
    · rw [heq, fold]
    · rw [heq, fold, foldRows_eq_map, hrows, heq]

end Term

/-! ### Evaluating lists of literals -/

namespace Scope

variable (s : Scope) (enter : Option Enter) (locals : Bindings)

open Term (ofElements ofRows fold ofElements_cases ofRows_cases foldElements_eq_map foldRows_eq_map)

variable {s enter locals} in
/-- The values of a list of terms, one for each value that is wanted. -/
theorem evalElements_map {f : Value → Term} {vs : List Value}
    (h : ∀ v ∈ vs, s.evalThen enter locals (f v) .ok = .ok v) :
    s.evalElements enter locals (vs.map f) = .ok vs := by
  induction vs with
  | nil => rfl
  | cons v vs ih =>
    obtain ⟨hv, hvs⟩ := List.forall_mem_cons.1 h
    rw [List.map_cons, evalElements, hv, ih hvs]
    rfl

variable {s enter locals} in
/-- The values of rows of terms, one for each value that is wanted. -/
theorem evalRows_map {f : Value → Term} {rows : List (List Value)}
    (h : ∀ row ∈ rows, ∀ v ∈ row, s.evalThen enter locals (f v) .ok = .ok v) :
    s.evalRows enter locals (rows.map (List.map f)) = .ok rows := by
  induction rows with
  | nil => rfl
  | cons row rows ih =>
    obtain ⟨hrow, hrows⟩ := List.forall_mem_cons.1 h
    rw [List.map_cons, evalRows, evalElements_map hrow, ih hrows]
    rfl

theorem evalElements_literals (vs : List Value) :
    s.evalElements enter locals (vs.map .literal) = .ok vs :=
  evalElements_map fun _ _ => rfl

theorem evalRows_literals (rows : List (List Value)) :
    s.evalRows enter locals (rows.map (List.map .literal)) = .ok rows :=
  evalRows_map fun _ _ _ _ => rfl

/-- A list of terms has the same value as a literal. -/
theorem evalThen_ofElements (ts : List Term) (next : Value → Except Fault Value) :
    s.evalThen enter locals (ofElements ts) next = s.evalThen enter locals (.vector ts) next := by
  rcases ofElements_cases ts with ⟨vs, rfl, heq⟩ | ⟨-, heq⟩
  · simp only [heq, evalThen, evalElements_literals, ok_bind]
  · rw [heq]

/-- Rows of terms have the same value as a literal. -/
theorem evalThen_ofRows (rows : List (List Term)) (next : Value → Except Fault Value) :
    s.evalThen enter locals (ofRows rows) next = s.evalThen enter locals (.matrix rows) next := by
  rcases ofRows_cases rows with ⟨vss, rfl, heq⟩ | heq
  · simp only [heq, evalThen, evalRows_literals, ok_bind]
  · rw [heq]

/-- An operation on a literal is applied to its value. -/
theorem evalThen_unary_literal (op : UnaryOp) (v : Value) (next : Value → Except Fault Value) :
    s.evalThen enter locals (.unary op (.literal v)) next =
      op.apply s.operationContext v >>= next :=
  s.evalThen_unary enter locals next (fun _ _ _ _ h => by cases h) (fun _ _ h => by cases h)

/-- A choice among literals is the same whether the operator looks into a list of terms or is
applied to their values. -/
theorem evalThen_conditional_ofElements (condition yes no : Term)
    (next : Value → Except Fault Value) :
    s.evalThen enter locals (.unary .conditional (ofElements [condition, yes, no])) next =
      s.evalThen enter locals (.unary .conditional (.vector [condition, yes, no])) next := by
  rcases ofElements_cases [condition, yes, no] with ⟨vs, hliterals, heq⟩ | ⟨-, heq⟩
  · obtain ⟨c, y, n, rfl⟩ : ∃ c y n, vs = [c, y, n] := by
      rw [← List.length_eq_three, ← List.length_map Term.literal, ← hliterals]
      rfl
    cases hliterals
    rw [heq, evalThen_unary_literal]
    simp only [evalThen, ok_bind, UnaryOp.apply, Value.choose, bind_assoc]
    refine bind_congr fun b => ?_
    cases b <;> rfl
  · rw [heq]

variable {s enter locals}

theorem sameKind_evalElements {ts : List Term}
    (h : ∀ t ∈ ts, SameKind (s.evalThen enter locals t.fold .ok) (s.evalThen enter locals t .ok)) :
    SameKind (s.evalElements enter locals (ts.map fold)) (s.evalElements enter locals ts) := by
  induction ts with
  | nil => exact .refl _
  | cons t ts ih =>
    obtain ⟨ht, hts⟩ := List.forall_mem_cons.1 h
    exact ht.bind fun v => (ih hts).bind fun vs => .refl _

theorem sameKind_evalRows {rows : List (List Term)}
    (h : ∀ row ∈ rows, ∀ t ∈ row,
      SameKind (s.evalThen enter locals t.fold .ok) (s.evalThen enter locals t .ok)) :
    SameKind (s.evalRows enter locals (rows.map (List.map fold)))
      (s.evalRows enter locals rows) := by
  induction rows with
  | nil => exact .refl _
  | cons row rows ih =>
    obtain ⟨hrow, hrows⟩ := List.forall_mem_cons.1 h
    exact (sameKind_evalElements hrow).bind fun vs => (ih hrows).bind fun vss => .refl _

/-- The induction on the term. -/
theorem sameKind_evalThen_fold (t : Term) :
    SameKind (s.evalThen enter locals t.fold .ok) (s.evalThen enter locals t .ok) := by
  induction t using Term.induction with
  | literal v => exact .refl _
  | var x => exact .refl _
  | conditional condition yes no ihcondition ihyes ihno =>
    have hfold : fold (.unary .conditional (.vector [condition, yes, no])) =
        .unary .conditional (ofElements [condition.fold, yes.fold, no.fold]) := rfl
    rw [hfold, evalThen_conditional_ofElements]
    simp only [evalThen]
    refine ihcondition.bind fun c => (SameKind.refl _).bind fun b => ?_
    cases b with
    | true => exact ihyes
    | false => exact ihno
  | conversion operand source target ih =>
    -- the names of the units are no literals, and the list remains one
    have hfold : fold (.unary .conversion (.vector [operand, .var source, .var target])) =
        .unary .conversion (.vector [operand.fold, .var source, .var target]) := by
      simp only [fold, Term.foldElements, ofElements, Term.literals?]
      cases operand.fold.literal? <;> rfl
    rw [hfold]
    simp only [evalThen]
    cases s.converter with
    | none => exact .refl _
    | some f => exact ih.bind fun v => .refl _
  | conversionError elements hform =>
    rw [evalThen_conversion_error _ _ _ hform, fold, fold, foldElements_eq_map]
    rcases ofElements_cases (elements.map fold) with ⟨vs, -, heq⟩ | ⟨-, heq⟩
    · -- the fault is that of the operator on a value, which is of the same kind
      have hkind : (Fault.conversionOperand .vector).kind = Fault.conversionForm.kind := rfl
      rw [heq, evalThen_unary_literal]
      exact congrArg Except.error hkind
    · have hform' : ∀ operand source target,
          elements.map fold ≠ [operand, .var source, .var target] := by
        intro operand source target h
        simp only [List.map_eq_cons_iff, List.map_eq_nil_iff] at h
        obtain ⟨t, _, rfl, -, u, _, rfl, hu, v, _, rfl, hv, rfl⟩ := h
        exact hform t source target (by rw [Term.eq_var_of_fold hu, Term.eq_var_of_fold hv])
      rw [heq, evalThen_conversion_error _ _ _ hform']
      exact .refl _
  | unary op operand hconditional hconversion ih =>
    have hconditional' : op = .conditional → ∀ c y n, operand.fold ≠ .vector [c, y, n] := by
      intro hop c y n h
      obtain ⟨elements, rfl, helements⟩ := Term.eq_vector_of_fold h
      obtain ⟨c', y', n', rfl⟩ : ∃ c' y' n', elements = [c', y', n'] := by
        rw [← List.length_eq_three, ← List.length_map fold, ← helements]
        rfl
      exact hconditional hop c' y' n' rfl
    have hconversion' : op = .conversion → ∀ elements, operand.fold ≠ .vector elements := by
      intro hop elements h
      obtain ⟨elements', rfl, -⟩ := Term.eq_vector_of_fold h
      exact hconversion hop elements' rfl
    rw [fold, evalThen_unary _ _ _ .ok hconditional' hconversion',
      evalThen_unary _ _ _ .ok hconditional hconversion]
    exact ih.bind fun v => .refl _
  | binary op left right ihleft ihright =>
    rw [fold, evalThen_binary, evalThen_binary]
    exact ihleft.bind fun v => ihright.bind fun w => .refl _
  | vector elements ih =>
    rw [fold, evalThen_ofElements, foldElements_eq_map]
    simp only [evalThen]
    exact (sameKind_evalElements ih).bind fun vs => .refl _
  | matrix rows ih =>
    rw [fold, evalThen_ofRows, foldRows_eq_map]
    simp only [evalThen]
    exact (sameKind_evalRows ih).bind fun vss => .refl _
  | call name arguments ih =>
    rw [fold, foldElements_eq_map]
    simp only [evalThen, List.length_map]
    split
    · exact .refl _
    · split
      · exact .refl _
      · cases enter with
        | none => exact .refl _
        | some call => exact (sameKind_evalElements ih).bind fun vs => .refl _
    · exact .refl _
  | assign name t => exact .refl _

/-- Folding keeps the meaning of a term wherever it is evaluated. -/
theorem sameKind_evalWithin_fold (calls : Nat) (t : Term) :
    SameKind (s.evalWithin calls locals t.fold) (s.evalWithin calls locals t) := by
  cases calls with
  | zero => exact sameKind_evalThen_fold t
  | succ calls => exact sameKind_evalThen_fold t

end Scope

/-! ### Sessions -/

namespace Session

/-- A value that is assigned is evaluated, unless it is a function. -/
theorem valueOf_assign (s : Session) (name : String) {t : Term}
    (h : ∀ f, t ≠ .literal (.function f)) :
    s.valueOf (.assign name t) = s.scope.eval t >>= fun v => .ok (some name, v) := by
  rw [valueOf.eq_def]
  split
  · next heq =>
    cases heq
    exact absurd rfl (h _)
  · next heq =>
    cases heq
    rfl
  · next hassign => exact (hassign name t rfl).elim

/-- A term that is no assignment is evaluated. -/
theorem valueOf_of_ne_assign (s : Session) {t : Term} (h : ∀ name u, t ≠ .assign name u) :
    s.valueOf t = s.scope.eval t >>= fun v => .ok (none, v) := by
  rw [valueOf.eq_def]
  split
  · exact absurd rfl (h _ _)
  · exact absurd rfl (h _ _)
  · rfl

theorem sameKind_valueOf_fold (s : Session) (t : Term) :
    SameKind (s.valueOf t.fold) (s.valueOf t) := by
  have heval : ∀ u : Term, SameKind (s.scope.eval u.fold) (s.scope.eval u) := fun u =>
    Scope.sameKind_evalWithin_fold _ u
  by_cases hassign : ∃ name u, t = .assign name u
  · obtain ⟨name, u, rfl⟩ := hassign
    by_cases hfunction : ∃ f, u = .literal (.function f)
    · obtain ⟨f, rfl⟩ := hfunction
      exact .refl _
    · have hu : ∀ f, u ≠ .literal (.function f) := fun f h => hfunction ⟨f, h⟩
      have hfold : ∀ f, u.fold ≠ .literal (.function f) := fun f h =>
        hu f (Term.eq_function_of_fold h)
      rw [Term.fold, s.valueOf_assign name hu, s.valueOf_assign name hfold]
      exact (heval u).bind fun v => .refl _
  · have ht : ∀ name u, t ≠ .assign name u := fun name u h => hassign ⟨name, u, h⟩
    have hfold : ∀ name u, t.fold ≠ .assign name u := fun name u h => by
      obtain ⟨value, rfl⟩ := Term.eq_assign_of_fold h
      exact ht name value rfl
    rw [s.valueOf_of_ne_assign ht, s.valueOf_of_ne_assign hfold]
    exact (heval t).bind fun v => .refl _

/-- **Folding keeps the meaning of a term.** Take any term in any session, with lists of literals
anywhere in it. The term and what it is folded to have the same value, or both end with a fault and
the faults are of the same kind. The session goes on in the same state. -/
theorem evaluateTerm_fold (s : Session) (t : Term) :
    (s.evaluateTerm t.fold).1.mapError Fault.kind = (s.evaluateTerm t).1.mapError Fault.kind ∧
      (s.evaluateTerm t.fold).2 = (s.evaluateTerm t).2 := by
  unfold evaluateTerm
  obtain ⟨r, hfold, heq⟩ | ⟨fault, fault', hfold, heq, hkind⟩ :=
    (s.sameKind_valueOf_fold t).ok_or_error
  · rw [hfold, heq]
    exact ⟨rfl, rfl⟩
  · rw [hfold, heq]
    exact ⟨congrArg Except.error hkind, rfl⟩

end Session

end Abacus
