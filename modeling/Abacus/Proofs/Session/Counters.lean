import Abacus.Proofs.Session.Coherence

/-!
# Counters stay below the length of a run

Epochs and handles are drawn from two counters that only grow. `Environment.drawn` is what has been
drawn from both of them, and no step of a session raises it by more than one
(`Session.drawn_run_le`): a step that gives out a handle binds nothing, and where a step binds two
names, the second is that of the latest answer, which spells no operator and so starts no epoch.

By induction on the steps, what is drawn in a run is at most as much as the run is long
(`Session.drawn_runAll_le`). So neither counter, and no epoch and no handle that is kept with a
compiled term, exceeds the number of steps since the session started
(`Session.counters_le_length`). That is why counters of 64 bits would do as well as the unbounded
ones.
-/

namespace Abacus

/-! ### Environments -/

namespace Environment

/-- How much has been drawn from the two counters. -/
def drawn (env : Environment) : Nat := env.epoch + env.nextHandle

variable (env : Environment)

theorem epochAfter_le (name : String) : env.epochAfter name ≤ env.epoch + 1 := by
  unfold epochAfter
  split
  · exact Nat.le_refl _
  · exact Nat.le_succ _

theorem find?_answerName : Operator.find? answerName = none := by decide +kernel

theorem drawn_bind_le (name : String) (v : Value) : (env.bind name v).drawn ≤ env.drawn + 1 := by
  have hafter := env.epochAfter_le name
  simp only [drawn, bind]
  split <;> omega

/-- The latest answer is not the name of an operator, so binding it starts no epoch. -/
theorem drawn_bind_answerName (v : Value) : (env.bind answerName v).drawn = env.drawn := by
  have hafter : env.epochAfter answerName = env.epoch := by
    rw [epochAfter, find?_answerName]
    rfl
  simp only [drawn, bind, hafter, ite_self]

theorem drawn_unbind_le (name : String) : (env.unbind name).drawn ≤ env.drawn + 1 := by
  have hafter := env.epochAfter_le name
  simp only [drawn, unbind]
  split <;> omega

theorem drawn_compile (text : String) (t : Term) :
    (env.compile text t).drawn = env.drawn + 1 := rfl

end Environment

/-! ### Steps of a session -/

namespace Session

/-- How much a session has drawn from its counters. -/
def drawn (s : Session) : Nat := s.environment.drawn

variable {s : Session}

theorem drawn_bind_le (name : String) (v : Value) : (s.bind name v).drawn ≤ s.drawn + 1 :=
  s.environment.drawn_bind_le name v

theorem drawn_finish_le (name : Option String) (v : Value) :
    (s.finish name v).drawn ≤ s.drawn + 1 := by
  cases name with
  | none => exact Nat.le_succ_of_le (Nat.le_of_eq (s.environment.drawn_bind_answerName v))
  | some name =>
    calc ((s.bind name v).bind Environment.answerName v).drawn
        = (s.bind name v).drawn := (s.bind name v).environment.drawn_bind_answerName v
      _ ≤ s.drawn + 1 := drawn_bind_le name v

theorem drawn_evaluateTerm_le (t : Term) : (s.evaluateTerm t).2.drawn ≤ s.drawn + 1 := by
  unfold evaluateTerm
  split
  · exact drawn_finish_le _ _
  · exact Nat.le_succ _

theorem drawn_evaluate_le (text : String) : (s.evaluate text).2.drawn ≤ s.drawn + 1 := by
  unfold evaluate
  split
  · exact drawn_evaluateTerm_le _
  · exact Nat.le_succ _

/-- Reading a text again draws nothing: the handle stays, and the epoch is the present one. -/
theorem drawn_refresh (handle : Nat) : (s.refresh handle).2.drawn = s.drawn := by
  unfold refresh
  split
  · rfl
  · split
    · rfl
    · split <;> rfl

theorem drawn_evaluateCompiled_le (handle : Nat) :
    (s.evaluateCompiled handle).2.drawn ≤ s.drawn + 1 := by
  rw [← s.drawn_refresh handle]
  unfold evaluateCompiled
  split
  · next t s' heq =>
    rw [heq]
    exact drawn_evaluateTerm_le t
  · next heq =>
    rw [heq]
    exact Nat.le_succ _

theorem drawn_compile_le (text : String) : (s.compile text).2.drawn ≤ s.drawn + 1 := by
  unfold compile
  split
  · -- the text has a handle, so at most it is read again
    next c _ =>
    rw [← s.drawn_refresh c.handle]
    split <;> next heq => rw [heq]; exact Nat.le_succ _
  · split
    · exact Nat.le_of_eq (s.environment.drawn_compile text _)
    · exact Nat.le_succ _

theorem drawn_bindText_le (name text : String) :
    (s.bindText name text).2.drawn ≤ s.drawn + 1 := by
  unfold bindText
  split
  · exact drawn_bind_le name _
  · exact Nat.le_succ _

theorem drawn_define_le (name : String) (parameters : List String) (body : String) :
    (s.define name parameters body).2.drawn ≤ s.drawn + 1 := by
  unfold define
  split
  · exact drawn_bind_le name _
  · exact Nat.le_succ _

/-- **A step draws at most once**, whichever it is and whether it succeeds or fails. -/
theorem drawn_run_le (s : Session) (command : Command) :
    (s.run command).2.drawn ≤ s.drawn + 1 := by
  cases command with
  | evaluate text => exact drawn_evaluate_le text
  | evaluateTerm t => exact drawn_evaluateTerm_le t
  | evaluateCompiled handle => exact drawn_evaluateCompiled_le handle
  | evaluateToNumber text => exact drawn_evaluate_le text
  | evaluateCompiledToNumber handle => exact drawn_evaluateCompiled_le handle
  | bind name v => exact drawn_bind_le name v
  | bindText name text => exact drawn_bindText_le name text
  | unbind name => exact s.environment.drawn_unbind_le name
  | define name parameters body => exact drawn_define_le name parameters body
  | compile text => exact drawn_compile_le text
  | get name | clearCompiled | setAngleUnit unit | setConverter converter =>
    -- these leave both counters alone
    exact Nat.le_succ _

/-! ### Runs -/

theorem drawn_runAll_le (s : Session) (commands : List Command) :
    (s.runAll commands).2.drawn ≤ s.drawn + commands.length := by
  induction commands generalizing s with
  | nil => exact Nat.le_refl _
  | cons command commands ih =>
    calc (s.runAll (command :: commands)).2.drawn
        ≤ (s.run command).2.drawn + commands.length := ih _
      _ ≤ s.drawn + 1 + commands.length := Nat.add_le_add_right (s.drawn_run_le command) _
      _ = s.drawn + (command :: commands).length := by
        rw [List.length_cons, Nat.add_assoc, Nat.add_comm 1]

/-- **Counters stay below the length of a run.** After any steps from the start, at most as many
epochs have ended and handles were given out, together, as there were steps; the epochs and handles
of the compiled terms are bounded likewise. -/
theorem counters_le_length (settings : Settings) (commands : List Command) :
    let env := ((start settings).runAll commands).2.environment
    env.epoch + env.nextHandle ≤ commands.length ∧
      ∀ c ∈ env.compiled, c.epoch ≤ commands.length ∧ c.handle < commands.length := by
  intro env
  have hdrawn : env.epoch + env.nextHandle ≤ commands.length := by
    have h := (start settings).drawn_runAll_le commands
    -- nothing is drawn at the start
    have hstart : (start settings).drawn = 0 := rfl
    rwa [hstart, Nat.zero_add] at h
  have hcoherent : env.Coherent := (coherent_start settings).runAll commands
  refine ⟨hdrawn, fun c hc => ?_⟩
  have hepoch := hcoherent.epoch_le c hc
  have hhandle := hcoherent.handle_lt c hc
  omega

end Session

end Abacus
