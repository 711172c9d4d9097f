import Abacus.Proofs.Grammar.Uniqueness

/-!
# The reader and the grammar agree

The main statement about reading (`Term.ofTokens_grammar`): tokens that pass the check are read only
into terms that they derive, derivable tokens pass the check and are read into the derived term
unless they are nested too deep, and no tokens derive two terms.

The check is not needed for the first of these if the brackets match. Tokens that are read then are
derivable, and derivable tokens pass it, so it only decides which fault is reported
(`Term.check_of_ofTokens`).
-/

namespace Abacus

namespace Token

theorem nested_of_check {ts : List Token} (h : check ts = .ok ()) : Nested ts :=
  ((check_eq_ok_iff ts).1 h).nested

end Token

namespace Term

/-- **Tokens are read as the grammar says.** Checked tokens are read only into a term that they
derive; derivable tokens pass the check and are read into that term, unless they are nested too
deep; and they derive no other term. -/
theorem ofTokens_grammar (ts : List Token) (t : Term) :
    (Token.check ts = .ok () → ofTokens ts = .ok t → Derives 1 ts t) ∧
      (Derives 1 ts t →
        Token.check ts = .ok () ∧ (ofTokens ts = .ok t ∨ ofTokens ts = .error .nesting)) ∧
      ∀ t', Derives 1 ts t → Derives 1 ts t' → t = t' := by
  refine ⟨fun hcheck hread => ?_, fun h => ⟨h.check_eq_ok, h.upToNesting 0⟩, fun _ h h' => ?_⟩
  · exact derives_of_ofTokensAt ts (Token.nested_of_check hcheck)
      (bindsAtLeast_one_of_ofTokensAt hread) (by decide) hread
  · exact h.unique h'

/-- The tokens of `-x^2*y` derive a product whose left factor is the negated power, and this is what
they are read into. -/
theorem ofTokens_grammar_negated_power :
    let ts : List Token := [.op .minus, .name "x", .op .power, .number (.ofInt 2), .op .times,
      .name "y"]
    let t : Term := .binary (.arith .mul)
      (.binary (.arith .pow) (.unary .minus (.var "x")) (.literal (.ofInt 2))) (.var "y")
    Token.check ts = .ok () ∧ ofTokens ts = .ok t ∧ Derives 1 ts t ∧
      ∀ t', Derives 1 ts t' → t = t' := by
  intro ts t
  have hpower : Derives 4 [.op .minus, .name "x", .op .power, .number (.ofInt 2)]
      (.binary (.arith .pow) (.unary .minus (.var "x")) (.literal (.ofInt 2))) :=
    .lift (.right rfl rfl (.unary rfl (.lift (.name "x"))) (.lift (.lift (.number _))))
  have hy : Derives 5 [.name "y"] (.var "y") := .lift (.lift (.name "y"))
  have hproduct : Derives 4 ts t := by
    refine .left ?_ ?_ (Nat.le_refl 4) hpower hy
    · rfl
    · rfl
  have hone : Derives 1 ts t := hproduct.mono (by decide)
  obtain ⟨hcheck, hread⟩ := (ofTokens_grammar ts t).2.1 hone
  -- these tokens are not nested too deep
  have hread : ofTokens ts = .ok t := by
    refine hread.resolve_right fun hnesting => ?_
    have hok : (ofTokens ts).toBool = true := by decide +kernel
    rw [hnesting] at hok
    cases hok
  exact ⟨hcheck, hread, (ofTokens_grammar ts t).1 hcheck hread,
    fun t' => (ofTokens_grammar ts t).2.2 t' hone⟩

/-! ### Reading without the check -/

/-- Tokens with matching brackets are read only into terms that they derive. -/
theorem derives_of_ofTokens {ts : List Token} {t : Term} (hnested : Token.Nested ts)
    (h : ofTokens ts = .ok t) : Derives 1 ts t :=
  derives_of_ofTokensAt ts hnested (bindsAtLeast_one_of_ofTokensAt h) (by decide) h

/-- **The check refuses nothing that is read.** Tokens with matching brackets that are read into a
term pass the check. So it makes no difference to what is accepted whether they are checked. -/
theorem check_of_ofTokens {ts : List Token} (hnested : Token.Nested ts) :
    (∀ t, ofTokens ts = .ok t → Token.check ts = .ok ()) ∧
      ∀ t, (do Token.check ts; ofTokens ts) = .ok t ↔ ofTokens ts = .ok t := by
  have hcheck : ∀ t, ofTokens ts = .ok t → Token.check ts = .ok () := fun t h =>
    (derives_of_ofTokens hnested h).check_eq_ok
  refine ⟨hcheck, fun t => ⟨fun h => ?_, fun h => ?_⟩⟩
  · obtain ⟨_, -, h⟩ := bind_eq_ok_iff.1 h
    exact h
  · rw [hcheck t h]
    exact h

/-- A call with an empty list in braces and a sign behind a comma, `f({}, -x)`. -/
theorem check_of_ofTokens_call :
    let ts : List Token := [.name "f", .opening .round, .opening .curly, .closing .curly, .comma,
      .op .minus, .name "x", .closing .round]
    let t : Term := .call "f" [.literal (.vector []), .unary .minus (.var "x")]
    Token.Nested ts ∧ ofTokens ts = .ok t ∧ Token.check ts = .ok () ∧
      (do Token.check ts; ofTokens ts) = .ok t := by
  intro ts t
  have hnested : Token.Nested ts := rfl
  have hempty : Derives 1 [.opening .curly, .closing .curly] (.literal (.vector [])) :=
    (Derives.vector (.inl rfl) .nil).mono (by decide)
  have hsign : Derives 1 [.op .minus, .name "x"] (.unary .minus (.var "x")) :=
    (Derives.unary rfl (.lift (.name "x"))).mono (by decide)
  have hcall : Derives 1 ts t :=
    (Derives.call "f" (.cons hempty (.cons hsign .nil))).mono (by decide)
  have hread : ofTokens ts = .ok t := by
    refine (hcall.upToNesting 0).resolve_right fun hnesting => ?_
    have hok : (ofTokensAt 0 ts).toBool = true := by decide +kernel
    rw [hnesting] at hok
    cases hok
  obtain ⟨hcheck, haccepted⟩ := check_of_ofTokens hnested
  exact ⟨hnested, hread, hcheck t hread, (haccepted t).2 hread⟩

end Term

end Abacus
