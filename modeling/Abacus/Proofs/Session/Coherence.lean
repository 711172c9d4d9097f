import Abacus.Proofs.KnownNames
import Abacus.Session
import Mathlib.Data.List.Nodup

/-!
# Compiled terms stay current

A compiled term is read again only if the epoch has changed since its text was read. The invariant
`Environment.Coherent` says why that is enough: a term of the present epoch is what its text is read
into with the names bound now. It also keeps handles and texts apart from each other, so that a
handle leads to the text it was given for.

The proof follows the operations of an environment. Binding and unbinding are the only ones that
change the bound names. Either the name spells an operator, and then a new epoch starts in which no
compiled term is current, or it does not, and then `Term.parse_congr` says that every text is read
as before.

From the invariant along a run (`Session.Reachable.coherent`) follows the main statement,
`Session.evaluateCompiled_eq_evaluate`: evaluating under a handle is evaluating the text that the
handle stands for.
-/

namespace Abacus

namespace Environment

/-! ### The invariant -/

/-- **Coherence of compiled terms.** Epochs and handles lie below the counters that the environment
draws them from, no handle and no text occurs twice, and a term of the present epoch is what its
text is read into now. -/
structure Coherent (env : Environment) : Prop where
  epoch_le : ∀ c ∈ env.compiled, c.epoch ≤ env.epoch
  handle_lt : ∀ c ∈ env.compiled, c.handle < env.nextHandle
  handles_nodup : (env.compiled.map Compiled.handle).Nodup
  texts_nodup : (env.compiled.map Compiled.text).Nodup
  current : ∀ c ∈ env.compiled, c.epoch = env.epoch → Term.parse c.text env.names = .ok c.term

variable {env : Environment}

theorem mem_of_compiled? {handle : Nat} {c : Compiled} (h : env.compiled? handle = some c) :
    c ∈ env.compiled :=
  List.mem_of_find?_eq_some h

theorem handle_of_compiled? {handle : Nat} {c : Compiled} (h : env.compiled? handle = some c) :
    c.handle = handle := by
  simpa using List.find?_some h

theorem mem_of_compiledText? {text : String} {c : Compiled}
    (h : env.compiledText? text = some c) : c ∈ env.compiled :=
  List.mem_of_find?_eq_some h

theorem text_of_compiledText? {text : String} {c : Compiled}
    (h : env.compiledText? text = some c) : c.text = text := by
  simpa using List.find?_some h

theorem ne_text_of_compiledText?_eq_none {text : String} (h : env.compiledText? text = none)
    {c : Compiled} (hc : c ∈ env.compiled) : c.text ≠ text := by
  simpa using List.find?_eq_none.1 h c hc

/-- A handle leads to the compiled term that bears it. -/
theorem Coherent.compiled?_handle (h : env.Coherent) {c : Compiled} (hc : c ∈ env.compiled) :
    env.compiled? c.handle = some c := by
  cases hf : env.compiled? c.handle with
  | none => exact absurd (beq_self_eq_true c.handle) (List.find?_eq_none.1 hf c hc)
  | some d =>
    rw [List.inj_on_of_nodup_map h.handles_nodup (mem_of_compiled? hf) hc (handle_of_compiled? hf)]

/-! ### Operations keep it -/

theorem coherent_start (unit : AngleUnit) : (start unit).Coherent where
  epoch_le := nofun
  handle_lt := nofun
  handles_nodup := .nil
  texts_nodup := .nil
  current := nofun

/-- New bindings keep coherence if the names either start a new epoch or contain the same spellings
of operators as before. -/
theorem Coherent.rebind (h : env.Coherent) {globals : Bindings} {epoch : Nat}
    (hepoch : env.epoch < epoch ∨
      epoch = env.epoch ∧ SameSpellings env.names globals.names) :
    Coherent { env with globals := globals, epoch := epoch } where
  epoch_le c hc := by
    have := h.epoch_le c hc
    change c.epoch ≤ epoch
    omega
  handle_lt := h.handle_lt
  handles_nodup := h.handles_nodup
  texts_nodup := h.texts_nodup
  current c hc he := by
    change c.epoch = epoch at he
    rcases hepoch with hlt | ⟨heq, hsame⟩
    · -- no term is of an epoch that has only just started
      have := h.epoch_le c hc
      omega
    · rw [← h.current c hc (he.trans heq)]
      exact (Term.parse_congr hsame c.text).symm

/-- A name that spells no operator starts no epoch. -/
theorem epochAfter_cases (env : Environment) (name : String) :
    env.epoch < env.epochAfter name ∨
      env.epochAfter name = env.epoch ∧ Operator.find? name = none := by
  unfold epochAfter
  split
  · exact .inl (Nat.lt_succ_self _)
  · next h => exact .inr ⟨rfl, by simpa using h⟩

theorem Coherent.bind (h : env.Coherent) (name : String) (v : Value) :
    (env.bind name v).Coherent := by
  refine h.rebind ?_
  split
  · next hbound => exact .inr ⟨rfl, sameSpellings_bind v (.inl hbound)⟩
  · -- the name becomes known, so a spelling of an operator starts an epoch
    rcases env.epochAfter_cases name with hlt | ⟨hepoch, hfind⟩
    · exact .inl hlt
    · exact .inr ⟨hepoch, sameSpellings_bind v (.inr hfind)⟩

theorem Coherent.unbind (h : env.Coherent) (name : String) : (env.unbind name).Coherent := by
  refine h.rebind ?_
  split
  · -- the name was known, so a spelling of an operator starts an epoch
    rcases env.epochAfter_cases name with hlt | ⟨hepoch, hfind⟩
    · exact .inl hlt
    · exact .inr ⟨hepoch, sameSpellings_unbind (.inr hfind)⟩
  · next hbound => exact .inr ⟨rfl, sameSpellings_unbind (.inl hbound)⟩

theorem Coherent.compile (h : env.Coherent) {text : String} {t : Term}
    (hnew : env.compiledText? text = none) (hparse : Term.parse text env.names = .ok t) :
    (env.compile text t).Coherent where
  epoch_le := by
    intro c hc
    rcases List.mem_append.1 hc with hc | hc
    · exact h.epoch_le c hc
    · rw [List.mem_singleton.1 hc]
      exact Nat.le_refl _
  handle_lt := by
    intro c hc
    rcases List.mem_append.1 hc with hc | hc
    · exact Nat.lt_succ_of_lt (h.handle_lt c hc)
    · rw [List.mem_singleton.1 hc]
      exact Nat.lt_succ_self _
  handles_nodup := by
    simp only [Environment.compile, List.map_append, List.map_cons, List.map_nil]
    refine List.nodup_append.2 ⟨h.handles_nodup, List.nodup_singleton _, ?_⟩
    -- all handles lie below the next one, which the new term bears
    intro n hn m hm
    obtain ⟨c, hc, rfl⟩ := List.mem_map.1 hn
    rw [List.mem_singleton.1 hm]
    exact Nat.ne_of_lt (h.handle_lt c hc)
  texts_nodup := by
    simp only [Environment.compile, List.map_append, List.map_cons, List.map_nil]
    refine List.nodup_append.2 ⟨h.texts_nodup, List.nodup_singleton _, ?_⟩
    intro x hx y hy
    obtain ⟨c, hc, rfl⟩ := List.mem_map.1 hx
    rw [List.mem_singleton.1 hy]
    exact ne_text_of_compiledText?_eq_none hnew hc
  current := by
    intro c hc he
    rcases List.mem_append.1 hc with hc | hc
    · exact h.current c hc he
    · rw [List.mem_singleton.1 hc]
      exact hparse

/-- A term that was read just now takes the place of an older one of the same text. -/
theorem Coherent.recompile (h : env.Coherent) {c : Compiled} {t : Term} (hc : c ∈ env.compiled)
    (hparse : Term.parse c.text env.names = .ok t) : (env.recompile c.handle t).Coherent := by
  -- the handle is that of `c` alone, so `c` is the only term that changes
  have hmem : ∀ d ∈ (env.recompile c.handle t).compiled,
      d ∈ env.compiled ∨ d = { c with term := t, epoch := env.epoch } := by
    intro d hd
    obtain ⟨e, he, rfl⟩ := List.mem_map.1 hd
    split
    · next hh =>
      rw [List.inj_on_of_nodup_map h.handles_nodup he hc hh]
      exact .inr rfl
    · exact .inl he
  -- handles and texts stay
  have hmap : ∀ {α : Type} (f : Compiled → α),
      (∀ d : Compiled, f { d with term := t, epoch := env.epoch } = f d) →
        (env.recompile c.handle t).compiled.map f = env.compiled.map f := by
    intro α f hf
    rw [Environment.recompile, List.map_map]
    refine List.map_congr_left fun d _ => ?_
    by_cases hd : d.handle = c.handle
    · rw [Function.comp_apply, if_pos hd, hf]
    · rw [Function.comp_apply, if_neg hd]
  refine ⟨?_, ?_, ?_, ?_, ?_⟩
  · intro d hd
    rcases hmem d hd with hd | rfl
    · exact h.epoch_le d hd
    · exact Nat.le_refl _
  · intro d hd
    rcases hmem d hd with hd | rfl
    · exact h.handle_lt d hd
    · exact h.handle_lt c hc
  · rw [hmap _ fun _ => rfl]
    exact h.handles_nodup
  · rw [hmap _ fun _ => rfl]
    exact h.texts_nodup
  · intro d hd he
    rcases hmem d hd with hd | rfl
    · exact h.current d hd he
    · exact hparse

theorem Coherent.clearCompiled (_ : env.Coherent) : env.clearCompiled.Coherent where
  epoch_le := nofun
  handle_lt := nofun
  handles_nodup := .nil
  texts_nodup := .nil
  current := nofun

end Environment

namespace Session

/-! ### Steps keep it -/

/-- A session whose compiled terms are coherent. -/
def Coherent (s : Session) : Prop := s.environment.Coherent

variable {s : Session}

theorem coherent_start (settings : Settings) : (start settings).Coherent :=
  Environment.coherent_start settings.angleUnit

theorem Coherent.bind (h : s.Coherent) (name : String) (v : Value) : (s.bind name v).Coherent :=
  Environment.Coherent.bind h name v

theorem Coherent.finish (h : s.Coherent) (name : Option String) (v : Value) :
    (s.finish name v).Coherent := by
  cases name with
  | none => exact h.bind _ v
  | some name => exact (h.bind name v).bind _ v

theorem Coherent.evaluateTerm (h : s.Coherent) (t : Term) : (s.evaluateTerm t).2.Coherent := by
  unfold Session.evaluateTerm
  split
  · exact h.finish _ _
  · exact h

theorem Coherent.evaluate (h : s.Coherent) (text : String) : (s.evaluate text).2.Coherent := by
  unfold Session.evaluate
  split
  · exact h.evaluateTerm _
  · exact h

theorem Coherent.refresh (h : s.Coherent) (handle : Nat) : (s.refresh handle).2.Coherent := by
  unfold Session.refresh
  split
  · exact h
  · next c hc =>
    split
    · exact h
    · split
      · next t hparse =>
        -- the handle that was looked up is that of the term that is replaced
        have hmem : c ∈ s.environment.compiled := Environment.mem_of_compiled? hc
        rw [← Environment.handle_of_compiled? hc]
        exact Environment.Coherent.recompile h hmem hparse
      · exact h

theorem Coherent.evaluateCompiled (h : s.Coherent) (handle : Nat) :
    (s.evaluateCompiled handle).2.Coherent := by
  have hr := h.refresh handle
  unfold Session.evaluateCompiled
  split
  · next t s' heq =>
    rw [heq] at hr
    exact hr.evaluateTerm t
  · next heq =>
    rw [heq] at hr
    exact hr

theorem Coherent.compile (h : s.Coherent) (text : String) : (s.compile text).2.Coherent := by
  unfold Session.compile
  split
  · -- the text is kept already
    next c _ =>
    have hr := h.refresh c.handle
    split <;> next heq => rw [heq] at hr; exact hr
  · next hnew =>
    split
    · next hparse => exact Environment.Coherent.compile h hnew hparse
    · exact h

theorem Coherent.bindText (h : s.Coherent) (name text : String) :
    (s.bindText name text).2.Coherent := by
  unfold Session.bindText
  split
  · exact h.bind name _
  · exact h

theorem Coherent.define (h : s.Coherent) (name : String) (parameters : List String)
    (body : String) : (s.define name parameters body).2.Coherent := by
  unfold Session.define
  split
  · exact h.bind name _
  · exact h

/-- Every step keeps coherence, whether it succeeds or fails. -/
theorem Coherent.run (h : s.Coherent) (command : Command) : (s.run command).2.Coherent := by
  cases command with
  | evaluate text => exact h.evaluate text
  | evaluateTerm t => exact h.evaluateTerm t
  | evaluateCompiled handle => exact h.evaluateCompiled handle
  | evaluateToNumber text => exact h.evaluate text
  | evaluateCompiledToNumber handle => exact h.evaluateCompiled handle
  | bind name v => exact h.bind name v
  | bindText name text => exact h.bindText name text
  | unbind name => exact Environment.Coherent.unbind h name
  | get name => exact h
  | define name parameters body => exact h.define name parameters body
  | compile text => exact h.compile text
  | clearCompiled => exact Environment.Coherent.clearCompiled h
  | setAngleUnit unit =>
    -- the angle unit is not among what coherence speaks of
    exact ⟨h.epoch_le, h.handle_lt, h.handles_nodup, h.texts_nodup, h.current⟩
  | setConverter converter => exact h

/-- So do steps taken one after the other. -/
theorem Coherent.runAll (h : s.Coherent) (commands : List Command) :
    (s.runAll commands).2.Coherent := by
  induction commands generalizing s with
  | nil => exact h
  | cons command commands ih => exact ih (h.run command)

/-- A session that steps lead to from one that has just started. -/
def Reachable (s : Session) : Prop :=
  ∃ settings commands, ((start settings).runAll commands).2 = s

theorem Reachable.coherent (h : s.Reachable) : s.Coherent := by
  obtain ⟨settings, commands, rfl⟩ := h
  exact (coherent_start settings).runAll commands

/-! ### Evaluating under a handle -/

/-- Reading again leaves everything as it is that an evaluation depends on. -/
theorem scope_refresh (s : Session) (handle : Nat) : (s.refresh handle).2.scope = s.scope := by
  unfold refresh
  split
  · rfl
  · split
    · rfl
    · split <;> rfl

/-- The term under a live handle is what its text is read into, with the same faults. -/
theorem Coherent.refresh_fst (h : s.Coherent) {handle : Nat} {c : Compiled}
    (hc : s.environment.compiled? handle = some c) : (s.refresh handle).1 = s.parse c.text := by
  unfold Session.refresh
  rw [hc]
  by_cases hcur : s.environment.isCurrent c
  · -- the stored term is returned, and it is what reading would give
    have hepoch : c.epoch = s.environment.epoch := by simpa [Environment.isCurrent] using hcur
    have hread := h.current c (Environment.mem_of_compiled? hc) hepoch
    simp only [hcur, ↓reduceIte]
    exact hread.symm
  · -- the text is read again
    simp only [hcur, Bool.false_eq_true, ↓reduceIte]
    cases s.parse c.text <;> rfl

/-- What a term evaluates to depends on the scope of a session alone. -/
theorem valueOf_congr {s s' : Session} (h : s.scope = s'.scope) (t : Term) :
    s.valueOf t = s'.valueOf t := by
  simp only [valueOf, h]

theorem globals_finish (s : Session) (name : Option String) (v : Value) :
    (s.finish name v).environment.globals =
      (name.elim s.environment.globals (s.environment.globals.insert · v)).insert
        Environment.answerName v := by
  cases name <;> rfl

/-- Sessions of the same scope evaluate terms alike and end with the same bindings. -/
theorem evaluateTerm_congr {s s' : Session} (h : s.scope = s'.scope) (t : Term) :
    (s.evaluateTerm t).1 = (s'.evaluateTerm t).1 ∧
      (s.evaluateTerm t).2.environment.globals = (s'.evaluateTerm t).2.environment.globals := by
  have hglobals : s.environment.globals = s'.environment.globals := congrArg Scope.globals h
  unfold evaluateTerm
  rw [valueOf_congr h t]
  cases s'.valueOf t with
  | error fault =>
    -- nothing is bound
    exact ⟨rfl, hglobals⟩
  | ok r =>
    refine ⟨rfl, ?_⟩
    simp only [globals_finish, hglobals]

theorem Coherent.evaluateCompiled_eq (h : s.Coherent) {handle : Nat} {c : Compiled}
    (hc : s.environment.compiled? handle = some c) :
    (s.evaluateCompiled handle).1 = (s.evaluate c.text).1 ∧
      (s.evaluateCompiled handle).2.environment.globals =
        (s.evaluate c.text).2.environment.globals := by
  have hscope := s.scope_refresh handle
  have hread := h.refresh_fst hc
  unfold Session.evaluateCompiled Session.evaluate
  -- the outcome of refreshing is a term or a fault, the same as that of reading the text
  cases hr : s.refresh handle with
  | mk outcome s' =>
    rw [hr] at hscope hread
    rw [← hread]
    cases outcome with
    | ok t => exact evaluateTerm_congr hscope t
    | error fault => exact ⟨rfl, congrArg Scope.globals hscope⟩

/-- Compiling fails if and only if reading the text fails, with the same fault. -/
theorem Coherent.compile_eq (h : s.Coherent) (text : String) :
    (s.compile text).1.map (fun _ => ()) = (s.parse text).map (fun _ => ()) := by
  unfold Session.compile
  split
  · next c hc =>
    -- the text is kept already, so what counts is whether it can be refreshed
    have hlive := Environment.Coherent.compiled?_handle h (Environment.mem_of_compiledText? hc)
    have hread := h.refresh_fst hlive
    rw [← Environment.text_of_compiledText? hc, ← hread]
    cases hr : s.refresh c.handle with
    | mk outcome s' => cases outcome <;> rfl
  · cases s.parse text <;> rfl

/-- **Compiled terms are coherent.** In every session that steps lead to, evaluating under a live
handle answers what evaluating its text answers, a value or a fault, and leaves the same bindings;
and a text can be compiled if and only if it can be read, with the same fault otherwise. -/
theorem evaluateCompiled_eq_evaluate {s : Session} (h : s.Reachable) :
    (∀ handle c, s.environment.compiled? handle = some c →
      (s.evaluateCompiled handle).1 = (s.evaluate c.text).1 ∧
        (s.evaluateCompiled handle).2.environment.globals =
          (s.evaluate c.text).2.environment.globals) ∧
    ∀ text, (s.compile text).1.map (fun _ => ()) = (s.parse text).map (fun _ => ()) :=
  ⟨fun _ _ hc => h.coherent.evaluateCompiled_eq hc, h.coherent.compile_eq⟩

/-- Here `sin(0)` is compiled while `sin` is an operator. Binding `sin` starts a new epoch, in which
the text is a call; evaluating under the handle agrees with that. -/
theorem evaluateCompiled_eq_evaluate_shadowed :
    let s := ((start {}).runAll [.compile "sin(0)", .bind "sin" .zero]).2
    s.Reachable ∧
      (s.environment.compiled? 0).map (fun c => (c.text, c.epoch)) = some ("sin(0)", 0) ∧
      s.environment.epoch = 1 ∧
      (s.evaluateCompiled 0).1 = (s.evaluate "sin(0)").1 ∧
      (s.evaluateCompiled 0).2.environment.globals =
        (s.evaluate "sin(0)").2.environment.globals ∧
      (s.compile "sin(0)").1.map (fun _ => ()) = (s.parse "sin(0)").map (fun _ => ()) := by
  intro s
  have hs : s.Reachable := ⟨_, _, rfl⟩
  have hlive : (s.environment.compiled? 0).map (fun c => (c.text, c.epoch)) =
      some ("sin(0)", 0) := by decide +kernel
  obtain ⟨c, hc, htext⟩ := Option.map_eq_some_iff.1 hlive
  have htext : c.text = "sin(0)" := congrArg Prod.fst htext
  obtain ⟨heval, hcompile⟩ := evaluateCompiled_eq_evaluate hs
  -- the theorem speaks of the text that is kept under the handle
  have hagree := heval 0 c hc
  rw [htext] at hagree
  exact ⟨hs, hlive, by decide +kernel, hagree.1, hagree.2, hcompile "sin(0)"⟩

end Session

end Abacus
