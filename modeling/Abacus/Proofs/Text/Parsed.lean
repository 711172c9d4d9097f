import Abacus.Proofs.Grammar.Correctness
import Abacus.Proofs.Text.Legibility

/-!
# What texts are read into

Lexemes are cut from texts in the form that terms ask for: the numbers are values of numerals, and
the words are names. Tokens keep this form, and so does every term that the grammar derives from
them, by induction on the derivation (`Derives.isParsed`). The term of an expression is therefore
`Term.IsParsed` (`Term.isParsed_of_ofExpression`).
-/

namespace Abacus

open Decimal (Numeral)

/-! ### Lexemes -/

theorem Decimal.isNegative_toDouble (n : Nat) (e : Int) :
    Binary64.isNegative (Decimal.toDouble false n e) = false := by
  unfold Decimal.toDouble
  dsimp only
  split
  · exact Binary64.isNegative_nearest _ _
  · split
    · exact Binary64.isNegative_ofMagnitude (Nat.le_refl _) false
    · exact Binary64.isNegative_nearest _ _

theorem Decimal.Numeral.isNumeral_value (n : Numeral) (percent : Bool) :
    (n.value percent).IsNumeral := by
  unfold Numeral.value
  split
  · exact .percent (isNegative_toDouble _ _)
  · split
    · split
      · next q hq =>
        -- an integer that fits
        rw [Fraction.ofInt?] at hq
        split at hq
        · next hfits =>
          cases hq
          exact .integer hfits.2
        · cases hq
      · exact .double (isNegative_toDouble _ _)
    · exact .double (isNegative_toDouble _ _)

namespace Lexeme

/-- Numbers are values of numerals, and words are names. -/
def IsRead : Lexeme → Prop
  | number v => v.IsNumeral
  | word w => isName w.toList
  | _ => True

theorem isNumeral_of_number? {cs rest : List Char} {v : Value} (h : number? cs = some (v, rest)) :
    v.IsNumeral := by
  unfold number? at h
  split at h
  · cases h
    exact Decimal.Numeral.isNumeral_value _ _
  · cases h
    exact Decimal.Numeral.isNumeral_value _ _
  · cases h

theorem isName_of_word? {cs rest : List Char} {w : String} (h : word? cs = some (w, rest)) :
    isName w.toList := by
  cases cs with
  | nil => cases h
  | cons c cs =>
    rw [word?] at h
    split at h
    · next hc =>
      cases h
      rw [String.toList_ofList, isName, hc, Bool.true_and]
      exact List.all_takeWhile
    · cases h

theorem isRead_of_next? {cs rest : List Char} {l : Lexeme} (h : next? cs = some (l, rest)) :
    l.IsRead := by
  unfold next? at h
  split at h
  case h_7 =>
    split at h
    · next hnumber =>
      cases h
      exact isNumeral_of_number? hnumber
    · split at h
      · next hword =>
        cases h
        exact isName_of_word? hword
      · obtain ⟨_, -, heq⟩ := Option.map_eq_some_iff.1 h
        cases heq
        trivial
  all_goals
    cases h
    trivial

theorem Scans.isRead {cs : List Char} {ls : List Lexeme} (h : Scans cs ls) :
    ∀ l ∈ ls, l.IsRead := by
  induction h with
  | nil => exact List.forall_mem_nil _
  | blank _ _ ih => exact ih
  | lexeme hnext _ ih => exact List.forall_mem_cons.2 ⟨isRead_of_next? hnext, ih⟩

end Lexeme

/-! ### Tokens -/

namespace Token

/-- Numbers are values of numerals, and names are names. -/
def IsRead : Token → Prop
  | number v => v.IsNumeral
  | name x => isName x.toList
  | _ => True

theorem isRead_ofLexeme {known : List String} {isUnit : Bool} {l : Lexeme} (h : l.IsRead) :
    (ofLexeme known isUnit l).IsRead := by
  cases l with
  | word w =>
    rw [ofLexeme]
    split
    · exact h
    · split
      · trivial
      · exact h
  | number v => exact h
  | _ => trivial

theorem isRead_of_ofLexemesFrom {known : List String} {ls : List Lexeme} (h : ∀ l ∈ ls, l.IsRead)
    (groups : List OpenGroup) (converts : Bool) :
    ∀ t ∈ ofLexemesFrom known groups converts ls, t.IsRead := by
  induction ls generalizing groups converts with
  | nil => exact List.forall_mem_nil _
  | cons l ls ih =>
    obtain ⟨hl, hls⟩ := List.forall_mem_cons.1 h
    exact List.forall_mem_cons.2 ⟨isRead_ofLexeme hl, ih hls _ _⟩

theorem isRead_of_ofText {text : List Char} {known : List String} {ts : List Token}
    (h : ofText text known = .ok ts) : check ts = .ok () ∧ ∀ t ∈ ts, t.IsRead := by
  obtain ⟨ls, hscans, hcheck, rfl⟩ := exists_of_ofText h
  exact ⟨hcheck, isRead_of_ofLexemesFrom hscans.isRead [] false⟩

theorem mem_separated {items : List (List Token)} {item : List Token} (hitem : item ∈ items)
    {t : Token} (ht : t ∈ item) : t ∈ separated items := by
  induction items with
  | nil => cases hitem
  | cons first items ih =>
    cases items with
    | nil =>
      obtain rfl := List.mem_singleton.1 hitem
      exact ht
    | cons next items =>
      rw [separated_cons_cons, List.mem_append]
      rcases List.mem_cons.1 hitem with rfl | hitem
      · exact .inl ht
      · exact .inr (List.mem_cons_of_mem _ (ih hitem))

theorem mem_inBrackets {b : Bracket} {ts : List Token} {t : Token} (ht : t ∈ ts) :
    t ∈ inBrackets b ts :=
  List.mem_cons_of_mem _ (List.mem_append_left _ ht)

end Token

/-! ### Terms -/

open Token (inBrackets separated)

namespace Derives

/-- What holds of the terms of a list by induction holds of each of them. -/
theorem forall_isParsed {items : List (List Token)} {es : List Term}
    (h : List.Forall₂
      (fun ts t => ∃ _ : Derives 1 ts t, (∀ u ∈ ts, u.IsRead) → t.IsParsed) items es)
    (hts : ∀ u ∈ separated items, u.IsRead) : ∀ e ∈ es, e.IsParsed := by
  intro e he
  obtain ⟨ts, hmem, -, hparsed⟩ := Token.exists_of_mem_left h.flip he
  exact hparsed fun u hu => hts u (Token.mem_separated hmem hu)

/-- **Derived terms have the form of terms that are read**, if their tokens have. -/
theorem isParsed {p : Nat} {ts : List Token} {t : Term} (h : Derives p ts t)
    (hts : ∀ u ∈ ts, u.IsRead) : t.IsParsed := by
  induction h using Derives.induction with
  | lift _ ih => exact ih hts
  -- the tokens of an operation are those of its sides with the operator between them
  | left _ _ _ _ _ ihs iht =>
    obtain ⟨hleft, hright⟩ := List.forall_mem_append.1 hts
    exact .binary _ (ihs hleft) (iht (List.forall_mem_cons.1 hright).2)
  | right _ _ _ _ ihs iht =>
    obtain ⟨hleft, hright⟩ := List.forall_mem_append.1 hts
    exact .binary _ (ihs hleft) (iht (List.forall_mem_cons.1 hright).2)
  | unary _ _ ih => exact .unary _ (ih (List.forall_mem_cons.1 hts).2)
  | number v => exact .number (hts (.number v) List.mem_cons_self)
  | name x => exact .var (hts (.name x) List.mem_cons_self)
  | call x _ ih =>
    refine .call (hts (.name x) List.mem_cons_self) (forall_isParsed ih fun u hu => ?_)
    exact hts u (List.mem_cons_of_mem _ (Token.mem_inBrackets hu))
  | group _ ih => exact ih fun u hu => hts u (Token.mem_inBrackets hu)
  | list _ _ ih =>
    exact .elements (forall_isParsed ih fun u hu => hts u (Token.mem_inBrackets hu))
  | vector _ _ ih =>
    exact .elements (forall_isParsed ih fun u hu => hts u (Token.mem_inBrackets hu))
  | matrix hrows hcolumns h ih =>
    -- each row is a list in braces inside of the braces of the matrix
    have hne := List.length_pos_iff.1 (h.length_eq ▸ List.length_pos_iff.2 hrows)
    refine .rows hne hcolumns fun row hrow => ?_
    obtain ⟨items, hmem, hitems⟩ := Token.exists_of_mem_left ih.flip hrow
    refine forall_isParsed hitems fun u hu => hts u (Token.mem_inBrackets ?_)
    exact Token.mem_separated (List.mem_map_of_mem hmem) (Token.mem_inBrackets hu)

end Derives

/-- **The term of an expression has the form of terms that are read.** -/
theorem Term.isParsed_of_ofExpression {text : List Char} {known : List String} {t : Term}
    (h : ofExpression text known = .ok t) : t.IsParsed := by
  obtain ⟨ts, htext, hread⟩ := bind_eq_ok_iff.1 h
  obtain ⟨hcheck, hts⟩ := Token.isRead_of_ofText htext
  have hread : ofTokensAt 0 ts = .ok t := hread
  have hderives := derives_of_ofTokensAt ts (Token.nested_of_check hcheck)
    (bindsAtLeast_one_of_ofTokensAt hread) (by decide) hread
  exact hderives.isParsed hts

end Abacus
