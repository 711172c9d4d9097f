import Abacus.Proofs.Session.Erasure

/-!
# Handles are never mixed up

A handle that is given out stands for one text until the compiled terms are cleared, and for nothing
ever after. So texts that differ never get the same handle, a text that is compiled again gets the
handle that it has, and after clearing it gets another one (`Session.compile_handles`).

What an environment keeps about handles is its `Ledger`: the live handles with their texts, and the
next handle. `Ledger.Step` lists what a step can do with it, and `Session.Coherent.ledgerStep` says
that a session does nothing else, whichever step it takes and whether that fails. All that follows
looks at ledgers alone.

A statement about two points of a run needs more than an invariant of states. What happens to a
handle between them is one of two things. It stays live as long as nothing is cleared
(`Session.Coherent.mem_live_runAll_iff`), and once it is retired it remains so
(`Session.Coherent.retired_runAll`).
-/

namespace Abacus

/-! ### Ledgers -/

/-- What is kept about handles. -/
structure Ledger where
  /-- The live handles with their texts. -/
  live : List (Nat × String)
  /-- The handle that is given out next. -/
  next : Nat

namespace Ledger

/-- What a step does with handles, given the command and its answer. -/
inductive Step : Ledger → Command → Except Fault Reply → Ledger → Prop
  /-- A text that has no handle gets the next one. -/
  | issue {l : Ledger} (text : String) :
      Step l (.compile text) (.ok (.handle l.next)) ⟨l.live ++ [(l.next, text)], l.next + 1⟩
  /-- A text that has a handle keeps it. -/
  | again {l : Ledger} {handle : Nat} {text : String} (h : (handle, text) ∈ l.live) :
      Step l (.compile text) (.ok (.handle handle)) l
  | clear {l : Ledger} : Step l .clearCompiled (.ok .done) ⟨[], l.next⟩
  /-- Other steps, and those that fail to compile, leave handles alone. -/
  | stay {l : Ledger} {command : Command} {answer : Except Fault Reply}
      (hclear : command ≠ .clearCompiled)
      (hcompile : ∀ text handle, command = .compile text → answer ≠ .ok (.handle handle)) :
      Step l command answer l

/-- A handle that was given out and is not live. -/
structure Retired (l : Ledger) (handle : Nat) : Prop where
  lt_next : handle < l.next
  notMem : ∀ text, (handle, text) ∉ l.live

variable {l l' : Ledger} {command : Command} {answer : Except Fault Reply}

/-- A handle is live after a step if it was live and is not cleared, or if the step has just given
it out. -/
theorem Step.mem_live_iff (h : l.Step command answer l') (handle : Nat) (text : String) :
    (handle, text) ∈ l'.live ↔
      (handle, text) ∈ l.live ∧ command ≠ .clearCompiled ∨
        command = .compile text ∧ answer = .ok (.handle handle) := by
  cases h with
  | issue other =>
    simp only [List.mem_append, List.mem_singleton, Prod.mk.injEq, ne_eq, reduceCtorEq,
      not_false_eq_true, and_true, Command.compile.injEq, Except.ok.injEq, Reply.handle.injEq]
    rw [and_comm (a := handle = l.next), eq_comm (a := text), eq_comm (a := handle)]
  | again hmem =>
    constructor
    · intro hlive
      exact .inl ⟨hlive, nofun⟩
    · rintro (⟨hlive, -⟩ | ⟨⟨⟩, ⟨⟩⟩)
      · exact hlive
      · exact hmem
  | clear =>
    constructor
    · intro hlive
      cases hlive
    · rintro (⟨-, hne⟩ | ⟨⟨⟩, -⟩)
      exact absurd rfl hne
  | stay hclear hcompile =>
    constructor
    · intro hlive
      exact .inl ⟨hlive, hclear⟩
    · rintro (⟨hlive, -⟩ | ⟨hcommand, hanswer⟩)
      · exact hlive
      · exact absurd hanswer (hcompile text handle hcommand)

theorem Step.next_le (h : l.Step command answer l') : l.next ≤ l'.next := by
  cases h with
  | issue text => exact Nat.le_succ _
  | _ => exact Nat.le_refl _

/-- The handle that compiling answers is live already, or it is the next one. -/
theorem Step.mem_live_or_eq_next {text : String} {handle : Nat}
    (h : l.Step (.compile text) (.ok (.handle handle)) l') :
    (handle, text) ∈ l.live ∨ handle = l.next := by
  cases h with
  | issue text => exact .inr rfl
  | again hmem => exact .inl hmem
  | stay _ hcompile => exact absurd rfl (hcompile text handle rfl)

/-- A handle that is retired is not given out again. -/
theorem Retired.ne_handle {handle other : Nat} {text : String} (hretired : l.Retired handle)
    (h : l.Step (.compile text) (.ok (.handle other)) l') : handle ≠ other := by
  rintro rfl
  rcases h.mem_live_or_eq_next with hlive | rfl
  · exact hretired.notMem text hlive
  · exact Nat.lt_irrefl _ hretired.lt_next

theorem Retired.step {handle : Nat} (hretired : l.Retired handle) (h : l.Step command answer l') :
    l'.Retired handle where
  lt_next := Nat.lt_of_lt_of_le hretired.lt_next h.next_le
  notMem text hlive := by
    rcases (h.mem_live_iff handle text).1 hlive with ⟨hlive, -⟩ | ⟨rfl, rfl⟩
    · exact hretired.notMem text hlive
    · exact hretired.ne_handle h rfl

end Ledger

/-! ### The ledger of an environment -/

namespace Environment

/-- What the environment keeps about handles. -/
def ledger (env : Environment) : Ledger := ⟨env.compiled.map Compiled.key, env.nextHandle⟩

/-- The text of a live handle. -/
def textOf? (env : Environment) (handle : Nat) : Option String :=
  (env.compiled? handle).map Compiled.text

/-- The live handle of a text. -/
def handleOf? (env : Environment) (text : String) : Option Nat :=
  (env.compiledText? text).map Compiled.handle

variable {env env' : Environment}

theorem Alike.ledger_eq (h : env.Alike env') : env'.ledger = env.ledger := by
  simp only [ledger, h.keys, h.nextHandle]

theorem ledger_compile (text : String) (t : Term) :
    (env.compile text t).ledger =
      ⟨env.ledger.live ++ [(env.nextHandle, text)], env.nextHandle + 1⟩ := by
  simp only [ledger, compile, List.map_append, List.map_cons, List.map_nil, Compiled.key]

theorem mem_live_iff {handle : Nat} {text : String} :
    (handle, text) ∈ env.ledger.live ↔ ∃ c ∈ env.compiled, c.handle = handle ∧ c.text = text := by
  simp only [ledger, List.mem_map, Compiled.key, Prod.mk.injEq]

namespace Coherent

theorem lt_next (h : env.Coherent) {handle : Nat} {text : String}
    (hlive : (handle, text) ∈ env.ledger.live) : handle < env.ledger.next := by
  obtain ⟨c, hc, rfl, -⟩ := mem_live_iff.1 hlive
  exact h.handle_lt c hc

/-- Live handles are equal if and only if their texts are. -/
theorem handle_eq_iff (h : env.Coherent) {handle handle' : Nat} {text text' : String}
    (hlive : (handle, text) ∈ env.ledger.live) (hlive' : (handle', text') ∈ env.ledger.live) :
    handle = handle' ↔ text = text' := by
  obtain ⟨c, hc, rfl, rfl⟩ := mem_live_iff.1 hlive
  obtain ⟨c', hc', rfl, rfl⟩ := mem_live_iff.1 hlive'
  constructor
  · intro heq
    rw [List.inj_on_of_nodup_map h.handles_nodup hc hc' heq]
  · intro heq
    rw [List.inj_on_of_nodup_map h.texts_nodup hc hc' heq]

/-- The index by handles finds just the live handles. -/
theorem textOf?_eq_some_iff (h : env.Coherent) {handle : Nat} {text : String} :
    env.textOf? handle = some text ↔ (handle, text) ∈ env.ledger.live := by
  rw [mem_live_iff, textOf?, Option.map_eq_some_iff]
  constructor
  · rintro ⟨c, hc, rfl⟩
    exact ⟨c, mem_of_compiled? hc, handle_of_compiled? hc, rfl⟩
  · rintro ⟨c, hc, rfl, rfl⟩
    exact ⟨c, h.compiled?_handle hc, rfl⟩

/-- So does the index by texts. -/
theorem handleOf?_eq_some_iff (h : env.Coherent) {handle : Nat} {text : String} :
    env.handleOf? text = some handle ↔ (handle, text) ∈ env.ledger.live := by
  rw [mem_live_iff, handleOf?, Option.map_eq_some_iff]
  constructor
  · rintro ⟨c, hc, rfl⟩
    exact ⟨c, mem_of_compiledText? hc, rfl, text_of_compiledText? hc⟩
  · rintro ⟨c, hc, rfl, rfl⟩
    cases hfind : env.compiledText? c.text with
    | none => exact absurd rfl (ne_text_of_compiledText?_eq_none hfind hc)
    | some d =>
      -- no other term is kept for the text
      have heq := List.inj_on_of_nodup_map h.texts_nodup (mem_of_compiledText? hfind) hc
        (text_of_compiledText? hfind)
      exact ⟨d, rfl, congrArg Compiled.handle heq⟩

end Coherent

end Environment

/-! ### Steps of a session -/

namespace Session

/-- What the session keeps about handles. -/
def ledger (s : Session) : Ledger := s.environment.ledger

variable {s : Session}

theorem ledger_bind (name : String) (v : Value) : (s.bind name v).ledger = s.ledger := rfl

theorem ledger_finish (name : Option String) (v : Value) : (s.finish name v).ledger = s.ledger := by
  cases name with
  | none => exact ledger_bind _ v
  | some name => exact (ledger_bind _ v).trans (ledger_bind name v)

theorem ledger_evaluateTerm (t : Term) : (s.evaluateTerm t).2.ledger = s.ledger := by
  unfold evaluateTerm
  split
  · exact ledger_finish _ _
  · rfl

theorem ledger_evaluate (text : String) : (s.evaluate text).2.ledger = s.ledger := by
  unfold evaluate
  split
  · exact ledger_evaluateTerm _
  · rfl

theorem ledger_bindText (name text : String) : (s.bindText name text).2.ledger = s.ledger := by
  unfold bindText
  split
  · exact ledger_bind name _
  · rfl

theorem ledger_define (name : String) (parameters : List String) (body : String) :
    (s.define name parameters body).2.ledger = s.ledger := by
  unfold define
  split
  · exact ledger_bind name _
  · rfl

/-- Reading a text again changes the term under a handle, but not its text. -/
theorem Coherent.ledger_refresh (h : s.Coherent) (handle : Nat) :
    (s.refresh handle).2.ledger = s.ledger :=
  (h.alike_refresh handle).environment.ledger_eq

theorem Coherent.ledger_evaluateCompiled (h : s.Coherent) (handle : Nat) :
    (s.evaluateCompiled handle).2.ledger = s.ledger := by
  have hr := h.ledger_refresh handle
  unfold Session.evaluateCompiled
  split
  · next heq =>
    rw [heq] at hr
    exact (ledger_evaluateTerm _).trans hr
  · next heq =>
    rw [heq] at hr
    exact hr

theorem Coherent.ledgerStep_compile (h : s.Coherent) (text : String) :
    s.ledger.Step (.compile text) (reply .handle (s.compile text)).1 (s.compile text).2.ledger := by
  unfold Session.compile
  split
  · next c hc =>
    -- the text is kept, and compiling it can fail only where it is read again
    have hr := h.ledger_refresh c.handle
    have hlive : (c.handle, text) ∈ s.ledger.live :=
      Environment.mem_live_iff.2 ⟨c, Environment.mem_of_compiledText? hc, rfl,
        Environment.text_of_compiledText? hc⟩
    split
    · next heq =>
      rw [heq] at hr
      rw [hr]
      exact .again hlive
    · next heq =>
      rw [heq] at hr
      rw [hr]
      exact .stay nofun nofun
  · split
    · next t _ =>
      have hledger : Session.ledger { s with environment := s.environment.compile text t } =
          ⟨s.ledger.live ++ [(s.ledger.next, text)], s.ledger.next + 1⟩ :=
        Environment.ledger_compile text t
      rw [hledger]
      exact .issue text
    · exact .stay nofun nofun

/-- **What a step does with handles**, whichever it is and whether it succeeds or fails. -/
theorem Coherent.ledgerStep (h : s.Coherent) (command : Command) :
    s.ledger.Step command (s.run command).1 (s.run command).2.ledger := by
  have hstay : ∀ {command : Command}, command ≠ .clearCompiled →
      (∀ text, command ≠ .compile text) → (s.run command).2.ledger = s.ledger →
      s.ledger.Step command (s.run command).1 (s.run command).2.ledger := by
    intro command hclear hcompile hledger
    rw [hledger]
    exact .stay hclear fun text _ hcommand => absurd hcommand (hcompile text)
  cases command with
  | compile text => exact h.ledgerStep_compile text
  | clearCompiled => exact .clear
  | evaluate text => exact hstay nofun nofun (ledger_evaluate text)
  | evaluateTerm t => exact hstay nofun nofun (ledger_evaluateTerm t)
  | evaluateCompiled handle => exact hstay nofun nofun (h.ledger_evaluateCompiled handle)
  | evaluateToNumber text => exact hstay nofun nofun (ledger_evaluate text)
  | evaluateCompiledToNumber handle => exact hstay nofun nofun (h.ledger_evaluateCompiled handle)
  | bindText name text => exact hstay nofun nofun (ledger_bindText name text)
  | define name parameters body => exact hstay nofun nofun (ledger_define name parameters body)
  | _ => exact hstay nofun nofun rfl

/-- The answer to compiling is a handle, or a fault. -/
theorem run_compile_eq_ok_iff {text : String} {handle : Nat} :
    (s.run (.compile text)).1 = .ok (.handle handle) ↔ (s.compile text).1 = .ok handle := by
  simp only [run, reply]
  cases (s.compile text).1 <;> simp [Except.map]

/-! ### Runs -/

/-- Steps can be taken in two parts. -/
theorem runAll_append_snd (commands commands' : List Command) :
    (s.runAll (commands ++ commands')).2 = ((s.runAll commands).2.runAll commands').2 := by
  induction commands generalizing s with
  | nil => rfl
  | cons command commands ih => exact ih

/-- **Which handles are live after a run**: those that were live before, if nothing is cleared, and
those that were given out after the last time that something was. -/
theorem Coherent.mem_live_runAll_iff (h : s.Coherent) (commands : List Command) (handle : Nat)
    (text : String) :
    (handle, text) ∈ (s.runAll commands).2.ledger.live ↔
      (handle, text) ∈ s.ledger.live ∧ .clearCompiled ∉ commands ∨
        ∃ before after, commands = before ++ .compile text :: after ∧
          ((s.runAll before).2.compile text).1 = .ok handle ∧ .clearCompiled ∉ after := by
  induction commands generalizing s with
  | nil => simp [Session.runAll]
  | cons command commands ih =>
    have hstep := (h.ledgerStep command).mem_live_iff handle text
    refine (ih (h.run command)).trans ?_
    rw [hstep]
    constructor
    · rintro (⟨⟨hlive, hne⟩ | ⟨rfl, hanswer⟩, hclear⟩ | ⟨before, after, rfl, hanswer, hclear⟩)
      · refine .inl ⟨hlive, ?_⟩
        rw [List.mem_cons, not_or]
        exact ⟨hne.symm, hclear⟩
      · -- the first step gives the handle out
        exact .inr ⟨[], commands, rfl, run_compile_eq_ok_iff.1 hanswer, hclear⟩
      · exact .inr ⟨command :: before, after, rfl, hanswer, hclear⟩
    · rintro (⟨hlive, hclear⟩ | ⟨before, after, heq, hanswer, hclear⟩)
      · rw [List.mem_cons, not_or] at hclear
        exact .inl ⟨.inl ⟨hlive, fun hcommand => hclear.1 hcommand.symm⟩, hclear.2⟩
      · cases before with
        | nil =>
          obtain ⟨rfl, rfl⟩ := List.cons.inj heq
          exact .inl ⟨.inr ⟨rfl, run_compile_eq_ok_iff.2 hanswer⟩, hclear⟩
        | cons first before =>
          obtain ⟨rfl, rfl⟩ := List.cons.inj heq
          exact .inr ⟨before, after, rfl, hanswer, hclear⟩

theorem Coherent.next_le_runAll (h : s.Coherent) (commands : List Command) :
    s.ledger.next ≤ (s.runAll commands).2.ledger.next := by
  induction commands generalizing s with
  | nil => exact Nat.le_refl _
  | cons command commands ih =>
    exact Nat.le_trans (h.ledgerStep command).next_le (ih (h.run command))

/-- A handle that is retired stays so. -/
theorem Coherent.retired_runAll (h : s.Coherent) {handle : Nat} (hretired : s.ledger.Retired handle)
    (commands : List Command) : (s.runAll commands).2.ledger.Retired handle := by
  induction commands generalizing s with
  | nil => exact hretired
  | cons command commands ih => exact ih (h.run command) (hretired.step (h.ledgerStep command))

/-- A run in which compiled terms are cleared retires the handles that are live before. -/
theorem Coherent.retired_of_clearCompiled (h : s.Coherent) {handle : Nat} {text : String}
    (hlive : (handle, text) ∈ s.ledger.live) {commands : List Command}
    (hclear : .clearCompiled ∈ commands) : (s.runAll commands).2.ledger.Retired handle := by
  obtain ⟨before, after, rfl⟩ := List.append_of_mem hclear
  have hmiddle : (s.runAll before).2.Coherent := h.runAll before
  have hlt : handle < (s.runAll before).2.ledger.next :=
    Nat.lt_of_lt_of_le (Environment.Coherent.lt_next h hlive) (h.next_le_runAll before)
  rw [runAll_append_snd]
  -- clearing leaves no handle live, and the next one as it is
  exact (hmiddle.run .clearCompiled).retired_runAll ⟨hlt, nofun⟩ after

/-- Two handles that compiling answers, with any steps in between: where nothing is cleared, they
are equal if and only if the texts are, and otherwise they differ. -/
theorem Coherent.handle_eq_iff (h : s.Coherent) {text text' : String} {handle handle' : Nat}
    (hfirst : (s.compile text).1 = .ok handle) {between : List Command}
    (hsecond : (((s.compile text).2.runAll between).2.compile text').1 = .ok handle') :
    handle = handle' ↔ text = text' ∧ .clearCompiled ∉ between := by
  have hs : (s.compile text).2.Coherent := h.compile text
  have hs' : ((s.compile text).2.runAll between).2.Coherent := hs.runAll between
  have hlive : (handle, text) ∈ (s.compile text).2.ledger.live :=
    ((h.ledgerStep (.compile text)).mem_live_iff handle text).2
      (.inr ⟨rfl, run_compile_eq_ok_iff.2 hfirst⟩)
  have hstep := hs'.ledgerStep (.compile text')
  rw [run_compile_eq_ok_iff.2 hsecond] at hstep
  by_cases hclear : Command.clearCompiled ∈ between
  · -- the first handle is retired when the second is given out
    have hne := (hs.retired_of_clearCompiled hlive hclear).ne_handle hstep
    exact ⟨fun heq => absurd heq hne, fun hkept => absurd hclear hkept.2⟩
  · -- both handles are live in the end
    have hkept := (hs.mem_live_runAll_iff between handle text).2 (.inl ⟨hlive, hclear⟩)
    have hlast := (hstep.mem_live_iff handle text).2 (.inl ⟨hkept, nofun⟩)
    have hlast' := (hstep.mem_live_iff handle' text').2 (.inr ⟨rfl, rfl⟩)
    have hcoherent := hs'.run (.compile text')
    exact (Environment.Coherent.handle_eq_iff hcoherent hlast hlast').trans
      ⟨fun htext => ⟨htext, hclear⟩, And.left⟩

theorem evaluateCompiled_of_textOf?_eq_none {handle : Nat}
    (h : s.environment.textOf? handle = none) :
    s.evaluateCompiled handle = (.error (.deadHandle handle), s) := by
  have hfind : s.environment.compiled? handle = none := Option.map_eq_none_iff.1 h
  simp only [evaluateCompiled, refresh, hfind]

/-- **Handles are never mixed up.** Consider two points of a run at which texts are compiled, with
any steps before and in between. If the texts differ, so do the handles. If they are the same text,
the handles are the same unless the compiled terms are cleared in between, and otherwise they
differ.

After any run, a handle is live for just the text for which it was given out since the compiled
terms were last cleared, and the index by texts is the inverse of that by handles. Evaluating under
a handle that is not live is a fault of syntax and changes nothing. -/
theorem compile_handles (settings : Settings) :
    (∀ before between text text' handle handle',
      let first := ((start settings).runAll before).2.compile text
      let second := (first.2.runAll between).2.compile text'
      first.1 = .ok handle → second.1 = .ok handle' →
        (text ≠ text' → handle ≠ handle') ∧
          (text = text' → (handle = handle' ↔ Command.clearCompiled ∉ between))) ∧
    ∀ commands, let s := ((start settings).runAll commands).2
      (∀ handle text, s.environment.textOf? handle = some text ↔
        ∃ before after, commands = before ++ .compile text :: after ∧
          (((start settings).runAll before).2.compile text).1 = .ok handle ∧
          Command.clearCompiled ∉ after) ∧
      (∀ handle text,
        s.environment.handleOf? text = some handle ↔ s.environment.textOf? handle = some text) ∧
      ∀ handle, s.environment.textOf? handle = none →
        (Fault.deadHandle handle).kind = .syntactic ∧
          s.evaluateCompiled handle = (.error (.deadHandle handle), s) := by
  have hstart := coherent_start settings
  refine ⟨?_, fun commands =>
    ⟨fun handle text => ?_, fun handle text => ?_, fun handle hdead => ?_⟩⟩
  · intro before between text text' handle handle' first second hfirst hsecond
    have heq := (hstart.runAll before).handle_eq_iff hfirst hsecond
    refine ⟨fun hne hhandle => hne (heq.1 hhandle).1, fun htext => ?_⟩
    rw [heq]
    exact ⟨And.right, fun hclear => ⟨htext, hclear⟩⟩
  · -- nothing is live at the start
    rw [(Environment.Coherent.textOf?_eq_some_iff (hstart.runAll commands))]
    refine (hstart.mem_live_runAll_iff commands handle text).trans ⟨?_, .inr⟩
    rintro (⟨hlive, -⟩ | hissued)
    · cases hlive
    · exact hissued
  · have h := hstart.runAll commands
    exact h.handleOf?_eq_some_iff.trans h.textOf?_eq_some_iff.symm
  · exact ⟨rfl, evaluateCompiled_of_textOf?_eq_none hdead⟩

/-- Compiled terms are cleared between the two times that `sin(0)` is compiled, and a text that
cannot be read gets no handle. -/
theorem compile_handles_cleared :
    let first := (start {}).compile "sin(0)"
    let between : List Command := [.compile "1 +", .compile "2", .clearCompiled, .compile "2"]
    let second := (first.2.runAll between).2.compile "sin(0)"
    first.1 = .ok 0 ∧ second.1 = .ok 3 ∧ ((0 : Nat) = 3 ↔ Command.clearCompiled ∉ between) ∧
      second.2.environment.textOf? 0 = none := by
  intro first between second
  have hfirst : first.1 = .ok 0 := by with_unfolding_all rfl
  have hsecond : second.1 = .ok 3 := by with_unfolding_all rfl
  have hdead : second.2.environment.textOf? 0 = none := by with_unfolding_all rfl
  have hhandles := (compile_handles {}).1 [] between "sin(0)" "sin(0)" 0 3 hfirst hsecond
  exact ⟨hfirst, hsecond, hhandles.2 rfl, hdead⟩

end Session

end Abacus
