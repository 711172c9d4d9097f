import Abacus.Proofs.Session.Coherence
import Abacus.Proofs.Text.Statements
import Abacus.Proofs.Value.Fractions

/-!
# Sessions keep fractions well-formed

Negating a fraction leaves the range of 64 bits if the numerator is the smallest integer. No text
has such a literal, and no operation makes such a fraction from others that are well-formed. The
value of a term is therefore well-formed if its literals and all that is bound are
(`Session.hasWellFormedFractions_evaluate`).

A session that is fed by texts alone starts with constants, none of which is a fraction. From then
on it binds values of terms that were read from texts, and functions whose bodies were. That is the
invariant `Session.HasWellFormedFractions`, in which the compiled terms have a part because they are
evaluated later on. Along the whole run, negatives and magnitudes are then exact in whatever an
evaluation gets to.
-/

namespace Abacus

/-! ### What is read -/

theorem Value.IsNumeral.hasWellFormedFractions {v : Value} (h : v.IsNumeral) :
    v.HasWellFormedFractions := by
  cases h with
  | @integer n _ =>
    exact hasWellFormedFractions_rational.2
      (Fraction.isNegatable_ofInt_of_nonneg (Int.natCast_nonneg n))
  | double _ => exact List.forall_mem_nil _
  | percent _ => exact List.forall_mem_nil _

namespace Term

theorem fractionsOfElements_literals (vs : List Value) :
    fractionsOfElements (vs.map literal) = Value.fractionsOfElements vs := by
  induction vs with
  | nil => rfl
  | cons v vs ih => simp [fractionsOfElements, fractions, Value.fractionsOfElements, ih]

theorem fractionsOfRows_literals (rows : List (List Value)) :
    fractionsOfRows (rows.map (List.map literal)) = Value.fractionsOfRows rows := by
  induction rows with
  | nil => rfl
  | cons row rows ih =>
    simp [fractionsOfRows, fractionsOfElements_literals, Value.fractionsOfRows, ih]

/-- A list has the same fractions as a literal and as a vector. -/
theorem fractions_ofElements (ts : List Term) :
    (ofElements ts).fractions = fractionsOfElements ts := by
  rcases ofElements_cases ts with ⟨vs, rfl, heq⟩ | ⟨-, heq⟩ <;> rw [heq, fractions]
  rw [Value.fractions, fractionsOfElements_literals]

theorem fractions_ofRows (rows : List (List Term)) :
    (ofRows rows).fractions = fractionsOfRows rows := by
  rcases ofRows_cases rows with ⟨vss, rfl, heq⟩ | heq <;> rw [heq, fractions]
  rw [Value.fractions, fractionsOfRows_literals]

theorem IsParsed.hasWellFormedFractions {t : Term} (h : t.IsParsed) :
    t.HasWellFormedFractions := by
  induction h with
  | number hv => exact hv.hasWellFormedFractions
  | var _ => exact List.forall_mem_nil _
  | unary _ _ ih => exact ih
  | binary _ _ _ ihs iht => exact List.forall_mem_append.2 ⟨ihs, iht⟩
  | call _ _ ih =>
    intro q hq
    obtain ⟨t, ht, hq⟩ := mem_fractionsOfElements.1 hq
    exact ih t ht q hq
  | elements _ ih =>
    intro q hq
    rw [fractions_ofElements] at hq
    obtain ⟨t, ht, hq⟩ := mem_fractionsOfElements.1 hq
    exact ih t ht q hq
  | rows _ _ _ ih =>
    intro q hq
    rw [fractions_ofRows] at hq
    obtain ⟨row, hrow, t, ht, hq⟩ := mem_fractionsOfRows.1 hq
    exact ih row hrow t ht q hq

/-- The literals of what is read are well-formed, for every text and all known names. -/
theorem hasWellFormedFractions_of_parse {text : String} {known : List String} {t : Term}
    (h : parse text known = .ok t) : t.HasWellFormedFractions := by
  cases isStatement_of_parse h with
  | expression ht => exact ht.hasWellFormedFractions
  | assignment _ hvalue => exact hvalue.hasWellFormedFractions
  | definition _ _ hbody => exact hbody.hasWellFormedFractions

end Term

/-! ### Sessions that are fed by texts -/

/-- Whether a step hands over neither a term nor a value, but texts at most. -/
def Command.isTextual : Command → Bool
  | .evaluateTerm _ | .bind _ _ => false
  | _ => true

namespace Session

/-- Sessions that such steps lead to from one that has just started. -/
def IsFedByTexts (s : Session) : Prop :=
  ∃ settings commands, (∀ command ∈ commands, command.isTextual) ∧
    ((start settings).runAll commands).2 = s

/-- The terms that a session evaluates if it is given a text or a handle. -/
def Reads (s : Session) (t : Term) : Prop :=
  (∃ text, s.parse text = .ok t) ∨ ∃ handle, (s.refresh handle).1 = .ok t

/-- A session in which the fractions of bound values and of compiled terms are well-formed. -/
structure HasWellFormedFractions (s : Session) : Prop where
  bound : s.environment.globals.All Value.HasWellFormedFractions
  compiled : ∀ c ∈ s.environment.compiled, c.term.HasWellFormedFractions

variable {s : Session}

/-! ### Steps keep it -/

theorem hasWellFormedFractions_start (settings : Settings) :
    (start settings).HasWellFormedFractions := by
  have hconstants : ∀ e ∈ Environment.constants.entries, e.2.HasWellFormedFractions := by
    decide +kernel
  exact ⟨Bindings.all_of_entries hconstants, List.forall_mem_nil _⟩

namespace HasWellFormedFractions

theorem bind (h : s.HasWellFormedFractions) (name : String) {v : Value}
    (hv : v.HasWellFormedFractions) : (s.bind name v).HasWellFormedFractions :=
  ⟨h.bound.insert name hv, h.compiled⟩

theorem finish (h : s.HasWellFormedFractions) (name : Option String) {v : Value}
    (hv : v.HasWellFormedFractions) : (s.finish name v).HasWellFormedFractions := by
  cases name with
  | none => exact h.bind _ hv
  | some name => exact (h.bind name hv).bind _ hv

theorem evaluateTerm (h : s.HasWellFormedFractions) {t : Term} (ht : t.HasWellFormedFractions) :
    (s.evaluateTerm t).2.HasWellFormedFractions := by
  have hvalue := ends_valueOf (Scope.invariant_fractions (s := s.scope) h.bound)
    ⟨Bindings.all_empty, ht⟩
  unfold Session.evaluateTerm
  split
  · next heq => exact h.finish _ (hvalue.of_ok heq)
  · exact h

theorem evaluate (h : s.HasWellFormedFractions) (text : String) :
    (s.evaluate text).2.HasWellFormedFractions := by
  unfold Session.evaluate
  split
  · next hparse => exact h.evaluateTerm (Term.hasWellFormedFractions_of_parse hparse)
  · exact h

theorem refresh (h : s.HasWellFormedFractions) (handle : Nat) :
    (∀ t, (s.refresh handle).1 = .ok t → t.HasWellFormedFractions) ∧
      (s.refresh handle).2.HasWellFormedFractions := by
  unfold Session.refresh
  split
  · exact ⟨nofun, h⟩
  · next c hc =>
    split
    · refine ⟨?_, h⟩
      rintro _ ⟨⟩
      exact h.compiled c (Environment.mem_of_compiled? hc)
    · split
      · next t hparse =>
        have ht := Term.hasWellFormedFractions_of_parse hparse
        refine ⟨?_, h.bound, fun d hd => ?_⟩
        · rintro _ ⟨⟩
          exact ht
        · -- the term under the handle is the new one, and the others stay
          obtain ⟨e, he, rfl⟩ := List.mem_map.1 hd
          split
          · exact ht
          · exact h.compiled e he
      · exact ⟨nofun, h⟩

theorem evaluateCompiled (h : s.HasWellFormedFractions) (handle : Nat) :
    (s.evaluateCompiled handle).2.HasWellFormedFractions := by
  obtain ⟨hterm, hs⟩ := h.refresh handle
  unfold Session.evaluateCompiled
  split
  · next t s' heq =>
    rw [heq] at hterm hs
    exact hs.evaluateTerm (hterm t rfl)
  · next heq =>
    rw [heq] at hs
    exact hs

theorem compile (h : s.HasWellFormedFractions) (text : String) :
    (s.compile text).2.HasWellFormedFractions := by
  unfold Session.compile
  split
  · next c _ =>
    have hs := (h.refresh c.handle).2
    split <;> next heq => rw [heq] at hs; exact hs
  · split
    · next hparse =>
      refine ⟨h.bound, List.forall_mem_append.2 ⟨h.compiled, List.forall_mem_singleton.2 ?_⟩⟩
      exact Term.hasWellFormedFractions_of_parse hparse
    · exact h

theorem bindText (h : s.HasWellFormedFractions) (name text : String) :
    (s.bindText name text).2.HasWellFormedFractions := by
  unfold Session.bindText
  split
  · next hvalue =>
    obtain ⟨t, hparse, hvalue⟩ := bind_eq_ok_iff.1 hvalue
    have hinvariant := Scope.invariant_fractions (s := s.scope) h.bound
    have ht := Term.hasWellFormedFractions_of_parse hparse
    exact h.bind name ((hinvariant.ends_evalWithin _ ⟨Bindings.all_empty, ht⟩).of_ok hvalue)
  · exact h

theorem define (h : s.HasWellFormedFractions) (name : String) (parameters : List String)
    (body : String) : (s.define name parameters body).2.HasWellFormedFractions := by
  unfold Session.define
  split
  · next hparse => exact h.bind name (Term.hasWellFormedFractions_of_parse hparse)
  · exact h

/-- Every step keeps fractions well-formed that hands over texts at most. -/
theorem run (h : s.HasWellFormedFractions) {command : Command} (htextual : command.isTextual) :
    (s.run command).2.HasWellFormedFractions := by
  cases command with
  | evaluate text => exact h.evaluate text
  | evaluateTerm t => cases htextual
  | evaluateCompiled handle => exact h.evaluateCompiled handle
  | evaluateToNumber text => exact h.evaluate text
  | evaluateCompiledToNumber handle => exact h.evaluateCompiled handle
  | bind name v => cases htextual
  | bindText name text => exact h.bindText name text
  | unbind name => exact ⟨h.bound.erase name, h.compiled⟩
  | get name => exact h
  | define name parameters body => exact h.define name parameters body
  | compile text => exact h.compile text
  | clearCompiled => exact ⟨h.bound, List.forall_mem_nil _⟩
  | setAngleUnit unit => exact ⟨h.bound, h.compiled⟩
  | setConverter converter => exact ⟨h.bound, h.compiled⟩

/-- So do such steps taken one after the other. -/
theorem runAll (h : s.HasWellFormedFractions) {commands : List Command}
    (htextual : ∀ command ∈ commands, command.isTextual) :
    (s.runAll commands).2.HasWellFormedFractions := by
  induction commands generalizing s with
  | nil => exact h
  | cons command commands ih =>
    obtain ⟨hcommand, hcommands⟩ := List.forall_mem_cons.1 htextual
    exact ih (h.run hcommand) hcommands

theorem of_reads (h : s.HasWellFormedFractions) {t : Term} (ht : s.Reads t) :
    t.HasWellFormedFractions := by
  rcases ht with ⟨_, hparse⟩ | ⟨handle, hterm⟩
  · exact Term.hasWellFormedFractions_of_parse hparse
  · exact (h.refresh handle).1 t hterm

end HasWellFormedFractions

theorem IsFedByTexts.hasWellFormedFractions (h : s.IsFedByTexts) : s.HasWellFormedFractions := by
  obtain ⟨settings, commands, htextual, rfl⟩ := h
  exact (hasWellFormedFractions_start settings).runAll htextual

/-! ### Evaluating -/

/-- **Evaluation keeps fractions well-formed.** If all fractions in what is bound are well-formed,
then so are all fractions in the value of a term with well-formed literals, and in the value of any
text. Hence, in a session that is fed by texts alone, the negative and the magnitude of a fraction
are exact wherever the evaluation of a text or of a compiled term gets to. -/
theorem hasWellFormedFractions_evaluate (s : Session) :
    (s.environment.globals.All Value.HasWellFormedFractions →
      (∀ t v, t.HasWellFormedFractions → (s.evaluateTerm t).1 = .ok v →
        v.HasWellFormedFractions) ∧
      ∀ text v, (s.evaluate text).1 = .ok v → v.HasWellFormedFractions) ∧
    (s.IsFedByTexts → ∀ t, s.Reads t → ∀ calls locals u v,
      s.scope.Reaches s.settings.maxDepth .empty t calls locals u →
      s.scope.evalWithin calls locals u = .ok v →
      ∀ q ∈ v.fractions, q.neg.numerator = -q.numerator ∧ q.abs.numerator = |q.numerator|) := by
  refine ⟨fun hbound => ?_, fun hs t ht calls locals u v hreaches hvalue q hq => ?_⟩
  · have hterm : ∀ t v, t.HasWellFormedFractions → (s.evaluateTerm t).1 = .ok v →
        v.HasWellFormedFractions := fun t v ht hv =>
      (ends_evaluateTerm (Scope.invariant_fractions hbound) ⟨Bindings.all_empty, ht⟩).of_ok hv
    refine ⟨hterm, fun text v hv => ?_⟩
    unfold evaluate at hv
    split at hv
    · next t hparse => exact hterm t v (Term.hasWellFormedFractions_of_parse hparse) hv
    · cases hv
  · have hwell := hs.hasWellFormedFractions
    have hinvariant := Scope.invariant_fractions (s := s.scope) hwell.bound
    have hu := hinvariant.of_reaches ⟨Bindings.all_empty, hwell.of_reads ht⟩ hreaches
    have hv : v.HasWellFormedFractions := (hinvariant.ends_evalWithin calls hu).of_ok hvalue
    have hq : q.IsNegatable := Fraction.isWellFormed_iff.1 (hv q hq)
    exact ⟨hq.numerator_neg, hq.numerator_abs⟩

/-- A function negates what it is called with and takes the magnitude. The evaluation of the call
gets to the negation in its body, whose value is a fraction with an exact magnitude. -/
theorem hasWellFormedFractions_evaluate_negated :
    let s := ((start { maxDepth := 8 }).runAll [.define "f" ["x"] "abs(-x)"]).2
    let q : Fraction := ⟨3, 4, by decide, by decide, by decide, by decide, by decide⟩
    let locals : Bindings := .ofList [("x", .rational q)]
    s.IsFedByTexts ∧
      (s.evaluate "f(6/8)").1.toOption.map Value.text = some "3/4" ∧
      (∀ v, (s.evaluate "f(6/8)").1 = .ok v → v.HasWellFormedFractions) ∧
      s.scope.evalWithin 7 locals (.unary .minus (.var "x")) = .ok (.rational q.neg) ∧
      q.neg.abs.numerator = |q.neg.numerator| := by
  intro s q locals
  have hs : s.IsFedByTexts := ⟨_, _, by decide, rfl⟩
  have hbound : s.environment.globals.All Value.HasWellFormedFractions :=
    Bindings.all_of_entries (by decide +kernel)
  have hdepth : s.settings.maxDepth = 8 := by with_unfolding_all rfl
  obtain ⟨hvalues, hexact⟩ := hasWellFormedFractions_evaluate s
  rw [hdepth] at hexact
  let argument : Term := .binary (.arith .div) (.literal (.ofInt 6)) (.literal (.ofInt 8))
  let body : Term := .unary .abs (.unary .minus (.var "x"))
  have hread : s.parse "f(6/8)" = .ok (.call "f" [argument]) := by with_unfolding_all rfl
  have hf : s.scope.lookup? .empty "f" = some (.function ⟨"f", ["x"], body⟩) := by
    with_unfolding_all rfl
  have hargument : s.scope.evalWithin 8 .empty argument = .ok (.rational q) := by
    with_unfolding_all rfl
  have hoperand : s.scope.evalWithin 7 locals (.unary .minus (.var "x")) =
      .ok (.rational q.neg) := by
    with_unfolding_all rfl
  have hreaches : s.scope.Reaches 8 .empty (.call "f" [argument]) 7 locals
      (.unary .minus (.var "x")) :=
    .part (.body .refl hf rfl (.cons hargument .nil)) (List.mem_singleton_self _)
  have hneg := hexact hs _ (.inl ⟨_, hread⟩) _ _ _ _ hreaches hoperand _ (List.mem_singleton_self _)
  exact ⟨hs, by decide +kernel, (hvalues hbound).2 _, hoperand, hneg.2⟩

end Session

end Abacus
