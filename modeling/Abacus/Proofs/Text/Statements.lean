import Abacus.Proofs.Text.Definitions
import Abacus.Proofs.Text.Parsed

/-!
# Statements are read back from their texts

A text is read into an expression, an assignment or a definition (`Term.isStatement_of_parse`). The
text of each is read back as the same term if it is legible (`Term.IsStatement.parse_text`). The law
of the unparser follows (`Term.parse_text_of_parse`): what was read from any text, with any known
names, is read again from its own text, unless that misleads in one of the ways that
`Term.isLegible` names.

The condition is needed. `Term.parse_text_of_vector` shows a text for which the law fails without
it.
-/

namespace Abacus

namespace Term

/-- Terms of the form that texts are read into. -/
inductive IsStatement : Term → Prop
  | expression {t : Term} (h : t.IsParsed) : IsStatement t
  | assignment {x : String} {value : Term} (hx : isName x.toList) (h : value.IsParsed) :
      IsStatement (.assign x value)
  | definition {f : String} {parameters : List String} {body : Term} (hf : isName f.toList)
      (hparameters : ∀ x ∈ parameters, isName x.toList) (h : body.IsParsed) :
      IsStatement (.assign f (.literal (.function ⟨f, parameters, body⟩)))

/-- Whether the text of a term says what it is. In the body of a definition its parameters and its
own name are known. -/
def isLegibleStatement (known : List String) : Term → Bool
  | assign _ (literal (.function f)) => f.body.isLegible (f.name :: f.parameters ++ known) false
  | assign _ value => value.isLegible known false
  | t => t.isLegible known false

variable {known : List String}

theorem IsParsed.ne_function {t : Term} (h : t.IsParsed) (f : Definition) :
    t ≠ .literal (.function f) := by
  rintro rfl
  generalize ht : literal (.function f) = t at h
  cases h with
  | number hv =>
    cases ht
    cases hv
  | @elements es _ =>
    rcases ofElements_cases es with ⟨vs, -, heq⟩ | ⟨-, heq⟩ <;> rw [heq] at ht <;> cases ht
  | @rows rows _ _ _ =>
    rcases ofRows_cases rows with ⟨vss, -, heq⟩ | heq <;> rw [heq] at ht <;> cases ht
  | _ => cases ht

/-- **Texts are read into statements.** -/
theorem isStatement_of_parse {text : String} {t : Term} (h : parse text known = .ok t) :
    t.IsStatement := by
  unfold parse at h
  split at h
  · exact .expression (isParsed_of_ofExpression h)
  · split at h
    · cases h
    · next hhead =>
      obtain ⟨value, hvalue, rfl⟩ := map_eq_ok_iff.1 h
      exact .assignment (Head.isName_of_ofText? hhead).1 (isParsed_of_ofExpression hvalue)
    · next hhead =>
      obtain ⟨body, hbody, h⟩ := bind_eq_ok_iff.1 h
      cases h
      obtain ⟨hf, hparameters⟩ := Head.isName_of_ofText? hhead
      exact .definition hf (hparameters _ rfl) (isParsed_of_ofExpression hbody)

theorem IsStatement.isParsed_body {name : String} {f : Definition}
    (h : IsStatement (.assign name (.literal (.function f)))) : f.body.IsParsed := by
  cases h with
  | expression h => cases h.alwaysWrapped
  | assignment _ h => exact absurd rfl (h.ne_function f)
  | definition _ _ h => exact h

/-! ### Reading the texts of statements -/

theorem text_assign {x : String} {value : Term} (h : ∀ f, value ≠ .literal (.function f)) :
    (assign x value).text = x ++ " := " ++ value.text := by
  cases value with
  | literal v =>
    cases v with
    | function f => exact absurd rfl (h f)
    | _ => rfl
  | _ => rfl

theorem isLegibleStatement_assign {x : String} {value : Term}
    (h : ∀ f, value ≠ .literal (.function f)) :
    (assign x value).isLegibleStatement known = value.isLegible known false := by
  cases value with
  | literal v =>
    cases v with
    | function f => exact absurd rfl (h f)
    | _ => rfl
  | _ => rfl

/-- The text of a statement has a left side, or no colon. -/
theorem IsStatement.upToNesting_parse {t : Term} (h : t.IsStatement)
    (hl : t.isLegibleStatement known) : UpToNesting (parse t.text known) t := by
  cases h with
  | expression h =>
    have hl : t.isLegible known false := by
      cases t with
      | assign x value => cases h.alwaysWrapped
      | _ => exact hl
    exact (h.writes.1 false hl).parse_eq
  | @assignment x value hx h =>
    have hne := h.ne_function
    rw [isLegibleStatement_assign hne] at hl
    have htext : (assign x value).text.toList =
        x.toList ++ [' '] ++ ':' :: '=' :: ' ' :: value.text.toList := by
      rw [text_assign hne]
      simp
    have hcolon : ∀ c ∈ x.toList ++ [' '], c ≠ ':' :=
      List.forall_mem_append.2 ⟨Head.ne_of_isName hx rfl, by simp⟩
    rw [parse, htext, Head.split?_append hcolon]
    simp only [Head.ofText?_name hx]
    exact (h.writes.1 false hl).ofExpression.2.map _
  | @definition f xs body hf hxs h =>
    have htext : (assign f (.literal (.function ⟨f, xs, body⟩))).text =
        definitionText f xs body.text := by
      rw [text, if_pos rfl, Definition.text, definitionText]
    rw [htext, parse_definitionText hf hxs]
    exact (h.writes.1 false hl).ofExpression.1.map _

/-- **What is read is read again from its own text.** For every text and all known names, the text
of the term that is read from it means the same term, unless that text misleads or is nested too
deep. -/
theorem parse_text_of_parse {text : String} {t : Term} (h : parse text known = .ok t)
    (hl : t.isLegibleStatement known) :
    parse t.text known = .ok t ∨ parse t.text known = .error .nesting :=
  (isStatement_of_parse h).upToNesting_parse hl

/-- A definition in which a parameter spells an operator, with a vector in a conversion. The text of
the term is another one than that which was read. -/
theorem parse_text_of_parse_definition :
    let value : Term := .binary (.arith .mul) (.unary (.arc .sin) (.var "x"))
      (.vector [.var "w", .var "sum"])
    let t : Term := .assign "area" (.literal (.function
      ⟨"area", ["w", "sum"], .unary .conversion (.vector [value, .var "deg", .var "rad"])⟩))
    parse "area(w, sum) := convert(arcsin x * (w, sum), deg, rad)" [] = .ok t ∧
      t.isLegibleStatement [] ∧
      t.text = "area(w, sum) := convert(asin(x)*\x7bw, sum\x7d, deg, rad)" ∧
      parse t.text [] = .ok t := by
  intro value t
  have hread : parse "area(w, sum) := convert(arcsin x * (w, sum), deg, rad)" [] = .ok t := by
    with_unfolding_all rfl
  have hlegible : t.isLegibleStatement [] := by decide +kernel
  have htext : t.text = "area(w, sum) := convert(asin(x)*\x7bw, sum\x7d, deg, rad)" := by
    decide +kernel
  have hdepth : parse t.text [] ≠ .error .nesting := by
    intro hdeep
    have hok : (parse t.text []).toBool = true := by decide +kernel
    rw [hdeep] at hok
    cases hok
  exact ⟨hread, hlegible, htext, (parse_text_of_parse hread hlegible).resolve_right hdepth⟩

/-- The condition is needed: a vector of one element loses its braces under a unary operator, which
is then applied to the element. -/
theorem parse_text_of_vector :
    let t : Term := .unary .sum (.vector [.var "x"])
    parse "sum(\x7bx\x7d)" [] = .ok t ∧ t.text = "sum(x)" ∧
      parse t.text [] = .ok (.unary .sum (.var "x")) ∧ parse t.text [] ≠ .ok t := by
  intro t
  have htext : t.text = "sum(x)" := by decide +kernel
  have hread : parse "sum(x)" [] = .ok (.unary .sum (.var "x")) := by with_unfolding_all rfl
  rw [htext, hread]
  exact ⟨by with_unfolding_all rfl, rfl, rfl, by simp [t]⟩

end Term

end Abacus
