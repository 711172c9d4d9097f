import Abacus.Exchange
import Abacus.Proofs.Text.Statements

/-!
# Definitions are read back from their documents

A document keeps the name and the parameters of a definition as they are, and the body as its text
(`Definition.ofJson_toJson`). That text is read without known names, whereas the body was read with
the parameters and the name of the function known. The definition comes back if its body is legible
without them (`Definition.ofJson_toJson_of_parse`).

The condition is needed. `Definition.ofJson_toJson_of_shadowing` shows a parameter that spells an
operator and is one when the body is read back.
-/

namespace Abacus

namespace Json

theorem mapM_text? (texts : List String) : (texts.map Json.text).mapM text? = some texts := by
  rw [mapM_eq_some_iff_forall₂, List.forall₂_map_left_iff, List.forall₂_same]
  exact fun _ _ => rfl

end Json

namespace Definition

/-- The name and the parameters of a definition come back whatever they are, with the body that its
text means. -/
theorem ofJson_toJson (f : Definition) :
    ofJson f.toJson =
      (fun body => ⟨f.name, f.parameters, body⟩) <$> Term.ofJson f.body.toJson := by
  simp only [toJson, ofJson, List.foldlM_cons, List.foldlM_nil, Draft.read, Json.text?, Json.expect,
    Json.toTexts, Json.mapM_text?]
  cases Term.ofJson f.body.toJson with
  | error fault => rfl
  | ok body => rfl

/-- **Definitions are read back from their documents.** A definition that was read from a text comes
back as it is, with the same body, if the text of the body says what it is without known names and
is not nested too deep. -/
theorem ofJson_toJson_of_parse {text name : String} {f : Definition}
    (h : Term.parse text [] = .ok (.assign name (.literal (.function f))))
    (hl : f.body.isLegible [] false) (hdepth : Term.parse f.body.text [] ≠ .error .nesting) :
    ofJson f.toJson = .ok f := by
  have hbody : f.body.IsParsed := (Term.isStatement_of_parse h).isParsed_body
  have hread := ((hbody.writes.1 false hl).parse_eq).resolve_right hdepth
  rw [ofJson_toJson, Term.toJson, Term.ofJson, hread]
  obtain ⟨f, parameters, body⟩ := f
  rfl

/-- A definition with a vector, a power of a sine, and a call of another function. -/
theorem ofJson_toJson_of_parse_vector :
    let power : Term := .binary (.arith .pow) (.unary (.circular .sin) (.var "x")) (.var "n")
    let body : Term := .binary (.arith .add) (.vector [power, .literal (.ofInt 2)])
      (.call "g" [.var "x"])
    let f : Definition := ⟨"f", ["x", "n"], body⟩
    Term.parse "f(x, n) := (sin x ** n, 2) + g(x)" [] = .ok (.assign "f" (.literal (.function f))) ∧
      body.isLegible [] false ∧ body.text = "\x7bsin(x)^n, 2\x7d+g(x)" ∧
      Term.parse body.text [] ≠ .error .nesting ∧ ofJson f.toJson = .ok f := by
  intro power body f
  have hread : Term.parse "f(x, n) := (sin x ** n, 2) + g(x)" [] =
      .ok (.assign "f" (.literal (.function f))) := by
    with_unfolding_all rfl
  have hlegible : body.isLegible [] false := by decide +kernel
  have hdepth : Term.parse body.text [] ≠ .error .nesting := by
    intro hdeep
    have hok : (Term.parse body.text []).toBool = true := by decide +kernel
    rw [hdeep] at hok
    cases hok
  exact ⟨hread, hlegible, by decide +kernel, hdepth, ofJson_toJson_of_parse hread hlegible hdepth⟩

/-- The condition is needed: the parameter `sum` of the definition `f(sum) := sum + 1` is the
operator of that name when the body is read back. -/
theorem ofJson_toJson_of_shadowing :
    let one : Term := .literal (.ofInt 1)
    let f : Definition := ⟨"f", ["sum"], .binary (.arith .add) (.var "sum") one⟩
    Term.parse "f(sum) := sum + 1" [] = .ok (.assign "f" (.literal (.function f))) ∧
      f.body.text = "sum+1" ∧
      ofJson f.toJson = .ok ⟨"f", ["sum"], .unary .sum (.unary .plus one)⟩ := by
  intro one f
  have htext : f.body.text = "sum+1" := by decide +kernel
  have hread : Term.parse "sum+1" [] = .ok (.unary .sum (.unary .plus one)) := by
    with_unfolding_all rfl
  refine ⟨by with_unfolding_all rfl, htext, ?_⟩
  rw [ofJson_toJson, Term.toJson, Term.ofJson, htext, hread]
  rfl

end Definition

end Abacus
