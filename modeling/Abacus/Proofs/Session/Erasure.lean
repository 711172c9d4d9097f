import Abacus.Proofs.Session.Coherence

/-!
# Failed steps can be deleted

A step that fails binds nothing, gives out no handle and starts no epoch. It may still have read a
text again, so the session that it leaves need not be the one that it found: the term under a handle
can be newer. `Session.Alike` relates sessions that differ in nothing else. Alike sessions answer
every step alike and stay alike (`Session.Alike.run`), because a coherent session answers for a
handle what it would answer for its text; and the session that a failed step leaves is alike to the
one that it found (`Session.Coherent.alike_run`).

A run in which some steps that fail are marked for deletion is therefore followed, session by
session, by the run of the other steps, and these answer what they answered
(`Session.runAll_kept`).

One kind of failure does not count. Where a result is asked for as a number, the evaluation comes
first and binds its result, even if that turns out to be no number.
-/

namespace Abacus

/-- Handle and text of a compiled term, which stay as long as it is kept. -/
def Compiled.key (c : Compiled) : Nat × String := (c.handle, c.text)

namespace Environment

/-! ### Environments that differ in the terms they keep -/

/-- Environments with the same bindings, counters, handles and texts. The terms under the handles
may have been read in different epochs. -/
structure Alike (env env' : Environment) : Prop where
  globals : env.globals = env'.globals
  angleUnit : env.angleUnit = env'.angleUnit
  keys : env.compiled.map Compiled.key = env'.compiled.map Compiled.key
  nextHandle : env.nextHandle = env'.nextHandle
  epoch : env.epoch = env'.epoch

namespace Alike

variable {env env' env'' : Environment}

theorem refl (env : Environment) : env.Alike env := ⟨rfl, rfl, rfl, rfl, rfl⟩

theorem symm (h : env.Alike env') : env'.Alike env :=
  ⟨h.globals.symm, h.angleUnit.symm, h.keys.symm, h.nextHandle.symm, h.epoch.symm⟩

theorem trans (h : env.Alike env') (h' : env'.Alike env'') : env.Alike env'' :=
  ⟨h.globals.trans h'.globals, h.angleUnit.trans h'.angleUnit, h.keys.trans h'.keys,
    h.nextHandle.trans h'.nextHandle, h.epoch.trans h'.epoch⟩

theorem get? (h : env.Alike env') (name : String) : env.get? name = env'.get? name :=
  congrArg (·.get? name) h.globals

theorem epochAfter (h : env.Alike env') (name : String) :
    env.epochAfter name = env'.epochAfter name := by
  simp only [Environment.epochAfter, h.epoch]

theorem bind (h : env.Alike env') (name : String) (v : Value) :
    (env.bind name v).Alike (env'.bind name v) where
  globals := congrArg (·.insert name v) h.globals
  angleUnit := h.angleUnit
  keys := h.keys
  nextHandle := h.nextHandle
  epoch := by simp only [Environment.bind, h.get? name, h.epoch, h.epochAfter name]

theorem unbind (h : env.Alike env') (name : String) :
    (env.unbind name).Alike (env'.unbind name) where
  globals := congrArg (·.erase name) h.globals
  angleUnit := h.angleUnit
  keys := h.keys
  nextHandle := h.nextHandle
  epoch := by simp only [Environment.unbind, h.get? name, h.epoch, h.epochAfter name]

/-- The new handles agree, whatever terms they are given to. -/
theorem compile (h : env.Alike env') (text : String) (t t' : Term) :
    (env.compile text t).Alike (env'.compile text t') where
  globals := h.globals
  angleUnit := h.angleUnit
  keys := by simp only [Environment.compile, List.map_append, List.map_cons, List.map_nil,
    Compiled.key, h.keys, h.nextHandle]
  nextHandle := congrArg (· + 1) h.nextHandle
  epoch := h.epoch

/-- Reading a text again changes only the term under its handle. -/
theorem recompile (env : Environment) (handle : Nat) (t : Term) :
    env.Alike (env.recompile handle t) where
  globals := rfl
  angleUnit := rfl
  keys := by
    rw [Environment.recompile, List.map_map]
    refine List.map_congr_left fun c _ => ?_
    by_cases hc : c.handle = handle
    · rw [Function.comp_apply, if_pos hc, Compiled.key, Compiled.key]
    · rw [Function.comp_apply, if_neg hc]
  nextHandle := rfl
  epoch := rfl

theorem clearCompiled (h : env.Alike env') : env.clearCompiled.Alike env'.clearCompiled :=
  ⟨h.globals, h.angleUnit, rfl, h.nextHandle, h.epoch⟩

/-- What is found by its handle has the same text. -/
theorem compiled? (h : env.Alike env') (handle : Nat) :
    (env.compiled? handle).map Compiled.key = (env'.compiled? handle).map Compiled.key := by
  have hfind : ∀ e : Environment, (e.compiled? handle).map Compiled.key =
      (e.compiled.map Compiled.key).find? fun k => k.1 == handle := by
    intro e
    rw [List.find?_map]
    rfl
  rw [hfind env, hfind env', h.keys]

/-- What is found by its text has the same handle. -/
theorem compiledText? (h : env.Alike env') (text : String) :
    (env.compiledText? text).map Compiled.key = (env'.compiledText? text).map Compiled.key := by
  have hfind : ∀ e : Environment, (e.compiledText? text).map Compiled.key =
      (e.compiled.map Compiled.key).find? fun k => k.2 == text := by
    intro e
    rw [List.find?_map]
    rfl
  rw [hfind env, hfind env', h.keys]

end Alike

end Environment

namespace Session

/-! ### Sessions that answer alike -/

/-- Coherent sessions that differ in no more than the terms they keep. -/
structure Alike (s s' : Session) : Prop where
  left : s.Coherent
  right : s'.Coherent
  environment : s.environment.Alike s'.environment
  settings : s.settings = s'.settings
  converter : s.converter = s'.converter

/-- The same answer, and alike sessions. -/
def AlikeOutcomes {α : Type} (o o' : Outcome α) : Prop := o.1 = o'.1 ∧ o.2.Alike o'.2

variable {s s' s'' : Session}

theorem Coherent.alike (h : s.Coherent) : s.Alike s := ⟨h, h, .refl _, rfl, rfl⟩

namespace Alike

theorem symm (h : s.Alike s') : s'.Alike s :=
  ⟨h.right, h.left, h.environment.symm, h.settings.symm, h.converter.symm⟩

theorem trans (h : s.Alike s') (h' : s'.Alike s'') : s.Alike s'' :=
  ⟨h.left, h'.right, h.environment.trans h'.environment, h.settings.trans h'.settings,
    h.converter.trans h'.converter⟩

theorem scope (h : s.Alike s') : s.scope = s'.scope := by
  simp only [Session.scope, h.environment.globals, h.environment.angleUnit, h.settings, h.converter]

theorem names (h : s.Alike s') : s.environment.names = s'.environment.names :=
  congrArg Bindings.names h.environment.globals

theorem parse (h : s.Alike s') (text : String) : s.parse text = s'.parse text :=
  congrArg (Term.parse text) h.names

theorem bind (h : s.Alike s') (name : String) (v : Value) :
    (s.bind name v).Alike (s'.bind name v) :=
  ⟨h.left.bind name v, h.right.bind name v, h.environment.bind name v, h.settings, h.converter⟩

theorem finish (h : s.Alike s') (name : Option String) (v : Value) :
    (s.finish name v).Alike (s'.finish name v) := by
  cases name with
  | none => exact h.bind _ v
  | some name => exact (h.bind name v).bind _ v

/-! ### Steps of alike sessions -/

theorem evaluateTerm (h : s.Alike s') (t : Term) :
    AlikeOutcomes (s.evaluateTerm t) (s'.evaluateTerm t) := by
  unfold Session.evaluateTerm
  rw [valueOf_congr h.scope t]
  cases s'.valueOf t with
  | error fault => exact ⟨rfl, h⟩
  | ok r => exact ⟨rfl, h.finish r.1 r.2⟩

theorem evaluate (h : s.Alike s') (text : String) :
    AlikeOutcomes (s.evaluate text) (s'.evaluate text) := by
  unfold Session.evaluate
  rw [h.parse text]
  cases s'.parse text with
  | error fault => exact ⟨rfl, h⟩
  | ok t => exact h.evaluateTerm t

end Alike

/-- Refreshing changes no more than the term under the handle, whether it succeeds or fails. -/
theorem Coherent.alike_refresh (h : s.Coherent) (handle : Nat) :
    s.Alike (s.refresh handle).2 := by
  have henvironment : s.environment.Alike (s.refresh handle).2.environment := by
    unfold Session.refresh
    split
    · exact .refl _
    · split
      · exact .refl _
      · split
        · exact .recompile _ _ _
        · exact .refl _
  have hscope := s.scope_refresh handle
  exact ⟨h, h.refresh handle, henvironment, (congrArg Scope.settings hscope).symm,
    (congrArg Scope.converter hscope).symm⟩

namespace Alike

/-- Alike sessions find the same term under a handle, as both find what its text is read into. -/
theorem refresh (h : s.Alike s') (handle : Nat) :
    AlikeOutcomes (s.refresh handle) (s'.refresh handle) := by
  refine ⟨?_, (h.left.alike_refresh handle).symm.trans (h.trans (h.right.alike_refresh handle))⟩
  have hkey := h.environment.compiled? handle
  cases hc : s.environment.compiled? handle with
  | none =>
    have hc' : s'.environment.compiled? handle = none := by simpa [hc] using hkey.symm
    simp only [Session.refresh, hc, hc']
  | some c =>
    obtain ⟨c', hc', hkeys⟩ : ∃ c', s'.environment.compiled? handle = some c' ∧ c'.key = c.key := by
      simpa [hc] using hkey.symm
    have htext : c'.text = c.text := congrArg Prod.snd hkeys
    rw [h.left.refresh_fst hc, h.right.refresh_fst hc', htext, h.parse]

theorem evaluateCompiled (h : s.Alike s') (handle : Nat) :
    AlikeOutcomes (s.evaluateCompiled handle) (s'.evaluateCompiled handle) := by
  obtain ⟨hterm, hrest⟩ := h.refresh handle
  unfold Session.evaluateCompiled
  cases hr : s.refresh handle with
  | mk outcome r =>
    cases hr' : s'.refresh handle with
    | mk outcome' r' =>
      rw [hr, hr'] at hterm hrest
      obtain rfl : outcome = outcome' := hterm
      cases outcome with
      | error fault => exact ⟨rfl, hrest⟩
      | ok t => exact hrest.evaluateTerm t

theorem compile (h : s.Alike s') (text : String) :
    AlikeOutcomes (s.compile text) (s'.compile text) := by
  have hkey := h.environment.compiledText? text
  unfold Session.compile
  cases hc : s.environment.compiledText? text with
  | none =>
    have hc' : s'.environment.compiledText? text = none := by simpa [hc] using hkey.symm
    simp only [hc', h.parse text]
    cases hparse : s'.parse text with
    | error fault => exact ⟨rfl, h⟩
    | ok t =>
      -- both sessions give out the next handle
      have hread : s.parse text = .ok t := (h.parse text).trans hparse
      refine ⟨congrArg Except.ok h.environment.nextHandle, ?_, ?_, ?_, h.settings, h.converter⟩
      · exact Environment.Coherent.compile h.left hc hread
      · exact Environment.Coherent.compile h.right hc' hparse
      · exact h.environment.compile text t t
  | some c =>
    obtain ⟨c', hc', hkeys⟩ :
        ∃ c', s'.environment.compiledText? text = some c' ∧ c'.key = c.key := by
      simpa [hc] using hkey.symm
    have hhandle : c'.handle = c.handle := congrArg Prod.fst hkeys
    simp only [hc', hhandle]
    obtain ⟨hterm, hrest⟩ := h.refresh c.handle
    cases hr : s.refresh c.handle with
    | mk outcome r =>
      cases hr' : s'.refresh c.handle with
      | mk outcome' r' =>
        rw [hr, hr'] at hterm hrest
        obtain rfl : outcome = outcome' := hterm
        cases outcome <;> exact ⟨rfl, hrest⟩

theorem bindText (h : s.Alike s') (name text : String) :
    AlikeOutcomes (s.bindText name text) (s'.bindText name text) := by
  unfold Session.bindText
  rw [h.parse text, h.scope]
  split
  · exact ⟨rfl, h.bind name _⟩
  · exact ⟨rfl, h⟩

theorem define (h : s.Alike s') (name : String) (parameters : List String) (body : String) :
    AlikeOutcomes (s.define name parameters body) (s'.define name parameters body) := by
  unfold Session.define
  rw [h.names]
  split
  · exact ⟨rfl, h.bind name _⟩
  · exact ⟨rfl, h⟩

end Alike

theorem AlikeOutcomes.reply {α : Type} {o o' : Outcome α} (h : AlikeOutcomes o o') (f : α → Reply) :
    AlikeOutcomes (Session.reply f o) (Session.reply f o') :=
  ⟨congrArg (·.map f) h.1, h.2⟩

theorem AlikeOutcomes.asNumber {o o' : Outcome Value} (h : AlikeOutcomes o o') :
    AlikeOutcomes (Session.asNumber o) (Session.asNumber o') :=
  ⟨congrArg (·.bind Value.asNumber) h.1, h.2⟩

/-- **Alike sessions answer alike** and stay alike, whatever the step. -/
theorem Alike.run (h : s.Alike s') (command : Command) :
    AlikeOutcomes (s.run command) (s'.run command) := by
  cases command with
  | evaluate text => exact (h.evaluate text).reply _
  | evaluateTerm t => exact (h.evaluateTerm t).reply _
  | evaluateCompiled handle => exact (h.evaluateCompiled handle).reply _
  | evaluateToNumber text => exact (h.evaluate text).asNumber.reply _
  | evaluateCompiledToNumber handle => exact (h.evaluateCompiled handle).asNumber.reply _
  | bind name v => exact ⟨rfl, h.bind name v⟩
  | bindText name text => exact (h.bindText name text).reply _
  | unbind name =>
    refine ⟨?_, h.left.run (.unbind name), h.right.run (.unbind name), h.environment.unbind name,
      h.settings, h.converter⟩
    exact congrArg (fun v => Except.ok (Reply.binding v)) (h.environment.get? name)
  | get name =>
    exact ⟨congrArg (fun v => Except.ok (Reply.binding v)) (h.environment.get? name), h⟩
  | define name parameters body => exact (h.define name parameters body).reply _
  | compile text => exact (h.compile text).reply _
  | clearCompiled =>
    exact ⟨rfl, h.left.run .clearCompiled, h.right.run .clearCompiled,
      h.environment.clearCompiled, h.settings, h.converter⟩
  | setAngleUnit unit =>
    refine ⟨rfl, h.left.run (.setAngleUnit unit), h.right.run (.setAngleUnit unit), ?_,
      h.settings, h.converter⟩
    exact ⟨h.environment.globals, rfl, h.environment.keys, h.environment.nextHandle,
      h.environment.epoch⟩
  | setConverter converter =>
    exact ⟨rfl, h.left.run (.setConverter converter), h.right.run (.setConverter converter),
      h.environment, h.settings, rfl⟩

/-! ### Failed steps -/

/-- Whether a step fails. A result that is asked for as a number and is none does not count: it has
been bound. -/
def fails (s : Session) : Command → Bool
  | .evaluateToNumber text => !(s.evaluate text).1.isOk
  | .evaluateCompiledToNumber handle => !(s.evaluateCompiled handle).1.isOk
  | command => !(s.run command).1.isOk

theorem isOk_reply {α : Type} (f : α → Reply) (o : Outcome α) :
    (Session.reply f o).1.isOk = o.1.isOk := by
  obtain ⟨a, r⟩ := o
  cases a <;> rfl

theorem Coherent.alike_evaluateTerm (h : s.Coherent) {t : Term}
    (hfails : (s.evaluateTerm t).1.isOk = false) : s.Alike (s.evaluateTerm t).2 := by
  unfold Session.evaluateTerm at hfails ⊢
  split at hfails
  · cases hfails
  · exact h.alike

theorem Coherent.alike_evaluate (h : s.Coherent) {text : String}
    (hfails : (s.evaluate text).1.isOk = false) : s.Alike (s.evaluate text).2 := by
  unfold Session.evaluate at hfails ⊢
  split at hfails
  · exact h.alike_evaluateTerm hfails
  · exact h.alike

/-- The text under the handle may have been read again before the evaluation failed. -/
theorem Coherent.alike_evaluateCompiled (h : s.Coherent) {handle : Nat}
    (hfails : (s.evaluateCompiled handle).1.isOk = false) :
    s.Alike (s.evaluateCompiled handle).2 := by
  have hr := h.alike_refresh handle
  unfold Session.evaluateCompiled at hfails ⊢
  split at hfails
  · next he =>
    rw [he] at hr
    exact hr.trans (hr.right.alike_evaluateTerm hfails)
  · next he =>
    rw [he] at hr
    exact hr

theorem Coherent.alike_compile (h : s.Coherent) {text : String}
    (hfails : (s.compile text).1.isOk = false) : s.Alike (s.compile text).2 := by
  unfold Session.compile at hfails ⊢
  split at hfails
  · next c _ =>
    have hr := h.alike_refresh c.handle
    split at hfails
    · cases hfails
    · next he =>
      rw [he] at hr
      exact hr
  · split at hfails
    · cases hfails
    · exact h.alike

theorem Coherent.alike_bindText (h : s.Coherent) {name text : String}
    (hfails : (s.bindText name text).1.isOk = false) : s.Alike (s.bindText name text).2 := by
  unfold Session.bindText at hfails ⊢
  split at hfails
  · cases hfails
  · exact h.alike

theorem Coherent.alike_define (h : s.Coherent) {name : String} {parameters : List String}
    {body : String} (hfails : (s.define name parameters body).1.isOk = false) :
    s.Alike (s.define name parameters body).2 := by
  unfold Session.define at hfails ⊢
  split at hfails
  · cases hfails
  · exact h.alike

/-- **Failed steps change nothing that a later step can see.** -/
theorem Coherent.alike_run (h : s.Coherent) {command : Command} (hfails : s.fails command) :
    s.Alike (s.run command).2 := by
  cases command with
  | evaluate text =>
    simp only [fails, Session.run, isOk_reply, Bool.not_eq_true'] at hfails
    exact h.alike_evaluate hfails
  | evaluateTerm t =>
    simp only [fails, Session.run, isOk_reply, Bool.not_eq_true'] at hfails
    exact h.alike_evaluateTerm hfails
  | evaluateCompiled handle =>
    simp only [fails, Session.run, isOk_reply, Bool.not_eq_true'] at hfails
    exact h.alike_evaluateCompiled hfails
  | evaluateToNumber text =>
    simp only [fails, Bool.not_eq_true'] at hfails
    exact h.alike_evaluate hfails
  | evaluateCompiledToNumber handle =>
    simp only [fails, Bool.not_eq_true'] at hfails
    exact h.alike_evaluateCompiled hfails
  | bindText name text =>
    simp only [fails, Session.run, isOk_reply, Bool.not_eq_true'] at hfails
    exact h.alike_bindText hfails
  | define name parameters body =>
    simp only [fails, Session.run, isOk_reply, Bool.not_eq_true'] at hfails
    exact h.alike_define hfails
  | compile text =>
    simp only [fails, Session.run, isOk_reply, Bool.not_eq_true'] at hfails
    exact h.alike_compile hfails
  | _ => cases hfails

/-! ### Runs with steps deleted -/

/-- The entries of a list that are not marked for deletion. -/
def kept {α : Type} (entries : List (α × Bool)) : List α :=
  (entries.filter fun e => !e.2).map Prod.fst

/-- The marked steps of a run are steps that fail in it. -/
def MarksFailures (s : Session) : List (Command × Bool) → Prop
  | [] => True
  | (command, marked) :: steps =>
    (marked → s.fails command) ∧ (s.run command).2.MarksFailures steps

/-- Alike sessions stay alike if one of them leaves out marked steps, and the steps that both take
are answered alike. -/
theorem Alike.runAll_of_marksFailures {steps : List (Command × Bool)} (h : s.Alike s')
    (hmarks : s.MarksFailures steps) :
    (s'.runAll (kept steps)).1 =
        kept ((s.runAll (steps.map Prod.fst)).1.zip (steps.map Prod.snd)) ∧
      (s.runAll (steps.map Prod.fst)).2.Alike (s'.runAll (kept steps)).2 := by
  induction steps generalizing s s' with
  | nil => exact ⟨rfl, h⟩
  | cons step steps ih =>
    obtain ⟨command, marked⟩ := step
    obtain ⟨hfails, hmarks⟩ := hmarks
    cases marked with
    | true =>
      -- only the run of all steps goes on, and to an alike session
      have hstep : (s.run command).2.Alike s' := (h.left.alike_run (hfails rfl)).symm.trans h
      exact ih hstep hmarks
    | false =>
      obtain ⟨hanswer, hstep⟩ := h.run command
      obtain ⟨hanswers, hrest⟩ := ih hstep hmarks
      exact ⟨congrArg₂ List.cons hanswer.symm hanswers, hrest⟩

/-- **Failed steps can be deleted.** Where some of the steps that fail in a run are deleted from it,
the other steps answer what they answered, values, faults and handles alike, and the bindings and
the angle unit at the end are the same. -/
theorem runAll_kept (settings : Settings) (steps : List (Command × Bool))
    (hmarks : (start settings).MarksFailures steps) :
    let all := (start settings).runAll (steps.map Prod.fst)
    let rest := (start settings).runAll (kept steps)
    rest.1 = kept (all.1.zip (steps.map Prod.snd)) ∧
      rest.2.environment.globals = all.2.environment.globals ∧
      rest.2.environment.angleUnit = all.2.environment.angleUnit := by
  obtain ⟨hanswers, hrest⟩ := (coherent_start settings).alike.runAll_of_marksFailures hmarks
  exact ⟨hanswers, hrest.environment.globals.symm, hrest.environment.angleUnit.symm⟩

/-- Here the evaluation under a handle fails after the text has been read again as a call of `sin`,
which is bound to a number. Without that step and the text that cannot be read, the last text is
compiled under the same handle. -/
theorem runAll_kept_outdated :
    let steps : List (Command × Bool) :=
      [(.compile "sin(0)", false), (.bind "sin" .zero, false), (.evaluateCompiled 0, true),
        (.compile "1 +", true), (.compile "2", false)]
    let all := (start {}).runAll (steps.map Prod.fst)
    let rest := (start {}).runAll (kept steps)
    (start {}).MarksFailures steps ∧
      all.1.map Except.isOk = [true, true, false, false, true] ∧
      rest.1 = kept (all.1.zip (steps.map Prod.snd)) ∧
      rest.2.environment.globals = all.2.environment.globals ∧
      rest.2.environment.angleUnit = all.2.environment.angleUnit := by
  intro steps all rest
  have hmarks : (start {}).MarksFailures steps :=
    ⟨nofun, nofun, fun _ => by decide +kernel, fun _ => by decide +kernel, nofun, trivial⟩
  exact ⟨hmarks, by decide +kernel, runAll_kept {} steps hmarks⟩

end Session

end Abacus
