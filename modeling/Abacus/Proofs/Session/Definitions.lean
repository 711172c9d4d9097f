import Abacus.Proofs.Text.Definitions
import Abacus.Session

/-!
# Two ways to define a function

A function is defined by its name, its parameters and the text of its body (`Session.define`), or by
evaluating the text `name(parameters) := body`. If the body has no sign `:=` in it, the two ways
define the same function or find the same fault, and only the latest answer tells them apart
(`Session.define_eq_evaluate`).

With this sign in the body the text is never read, but the body by itself is read as a text of its
own, which may be an assignment. `Session.define_assignment` defines a function in this way.
-/

namespace Abacus

namespace Session

open Term (definitionText)

variable {s : Session} {name : String} {parameters : List String} {body : String}

theorem define_of_parse_eq_ok {t : Term}
    (h : Term.parse body (name :: parameters ++ s.environment.names) = .ok t) :
    s.define name parameters body = (.ok (), s.bind name (.function ⟨name, parameters, t⟩)) := by
  simp only [define, h]

theorem define_of_parse_eq_error {fault : Fault}
    (h : Term.parse body (name :: parameters ++ s.environment.names) = .error fault) :
    s.define name parameters body = (.error fault, s) := by
  simp only [define, h]

/-- A definition that is read is taken as it is. -/
theorem evaluate_of_parse_eq_ok {text : String} {t : Term}
    (h : s.parse text = .ok (.assign name (.literal (.function ⟨name, parameters, t⟩)))) :
    s.evaluate text = (.ok (.function ⟨name, parameters, t⟩),
      (s.bind name (.function ⟨name, parameters, t⟩)).bind Environment.answerName
        (.function ⟨name, parameters, t⟩)) := by
  simp only [evaluate, h, evaluateTerm, valueOf, finish]

theorem evaluate_of_parse_eq_error {text : String} {fault : Fault}
    (h : s.parse text = .error fault) : s.evaluate text = (.error fault, s) := by
  simp only [evaluate, h]

/-- **The two ways to define a function.** Take a name and parameters that are names, and any text
for the body.

If the body has no sign `:=` in it, both ways succeed or both fail. If they succeed, both bind the
same function, and evaluating the text binds it as the latest answer, too. If they fail, they fail
with the same fault and leave the session as it is.

If it has one, evaluating the text fails. Defining the function may fail as well, and if it succeeds
the body of the function is an assignment. -/
theorem define_eq_evaluate (s : Session) {name : String} {parameters : List String}
    (hname : isName name.toList) (hparameters : ∀ x ∈ parameters, isName x.toList)
    (body : String) :
    let text := definitionText name parameters body
    (¬ [':', '='] <:+: body.toList →
      (∃ t, let f : Value := .function ⟨name, parameters, t⟩
        s.define name parameters body = (.ok (), s.bind name f) ∧
          s.evaluate text = (.ok f, (s.bind name f).bind Environment.answerName f)) ∨
      ∃ fault, s.define name parameters body = (.error fault, s) ∧
        s.evaluate text = (.error fault, s)) ∧
    ([':', '='] <:+: body.toList →
      (∃ fault, s.evaluate text = (.error fault, s)) ∧
      ((∃ x value, s.define name parameters body =
          (.ok (), s.bind name (.function ⟨name, parameters, .assign x value⟩))) ∨
        ∃ fault, s.define name parameters body = (.error fault, s))) := by
  intro text
  -- both ways read the body with the same names known
  have htext : s.parse text =
      (fun t => .assign name (.literal (.function ⟨name, parameters, t⟩))) <$>
        Term.ofExpression body.toList (name :: parameters ++ s.environment.names) :=
    Term.parse_definitionText hname hparameters body
  constructor
  · intro hbody
    have hparse : Term.parse body (name :: parameters ++ s.environment.names) =
        Term.ofExpression body.toList (name :: parameters ++ s.environment.names) :=
      Term.parse_eq_ofExpression hbody
    cases hread : Term.ofExpression body.toList (name :: parameters ++ s.environment.names) with
    | ok t =>
      rw [hread] at htext hparse
      exact .inl ⟨t, define_of_parse_eq_ok hparse, evaluate_of_parse_eq_ok htext⟩
    | error fault =>
      rw [hread] at htext hparse
      exact .inr ⟨fault, define_of_parse_eq_error hparse, evaluate_of_parse_eq_error htext⟩
  · intro hbody
    constructor
    · have hcolon : ':' ∈ body.toList := hbody.subset List.mem_cons_self
      cases hread : Term.ofExpression body.toList (name :: parameters ++ s.environment.names) with
      | ok t => exact absurd hcolon (Term.colon_notMem_of_ofExpression hread)
      | error fault =>
        rw [hread] at htext
        exact ⟨fault, evaluate_of_parse_eq_error htext⟩
    · cases hparse : Term.parse body (name :: parameters ++ s.environment.names) with
      | ok t =>
        obtain ⟨x, value, rfl⟩ := Term.exists_assign_of_parse hparse hbody
        exact .inl ⟨x, value, define_of_parse_eq_ok hparse⟩
      | error fault => exact .inr ⟨fault, define_of_parse_eq_error hparse⟩

/-- The name of a parameter spells an operator, which it does not in the body. -/
theorem define_eq_evaluate_shadowed :
    ∃ t, let f : Value := .function ⟨"area", ["w", "sum"], t⟩
      (start {}).define "area" ["w", "sum"] "w * sum" = (.ok (), (start {}).bind "area" f) ∧
        (start {}).evaluate "area(w, sum) := w * sum" =
          (.ok f, ((start {}).bind "area" f).bind Environment.answerName f) := by
  have hname : isName "area".toList := by decide
  have hparameters : ∀ x ∈ ["w", "sum"], isName x.toList := by decide
  have hways := (define_eq_evaluate (start {}) hname hparameters "w * sum").1 (by decide)
  refine hways.resolve_right ?_
  rintro ⟨fault, hfault, -⟩
  have hok : ((start {}).define "area" ["w", "sum"] "w * sum").1.toBool = true := by
    with_unfolding_all rfl
  rw [hfault] at hok
  cases hok

/-- The body of this function is an assignment, which the text of a definition cannot have. -/
theorem define_assignment :
    let f : Value := .function ⟨"f", ["x"], .assign "a" (.var "x")⟩
    (start {}).define "f" ["x"] "a := x" = (.ok (), (start {}).bind "f" f) ∧
      (start {}).evaluate "f(x) := a := x" = (.error .strayDefine, start {}) := by
  intro f
  have hbody : Term.parse "a := x" ("f" :: ["x"] ++ (start {}).environment.names) =
      .ok (.assign "a" (.var "x")) := by
    with_unfolding_all rfl
  have htext : (start {}).parse "f(x) := a := x" = .error .strayDefine := by
    with_unfolding_all rfl
  exact ⟨define_of_parse_eq_ok hbody, evaluate_of_parse_eq_error htext⟩

end Session

end Abacus
