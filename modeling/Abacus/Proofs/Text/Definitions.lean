import Abacus.Proofs.Grammar.Soundness
import Abacus.Proofs.Text.Heads
import Abacus.Proofs.Text.Legibility

/-!
# Definitions as texts

The text of a definition is cut at its first sign `:=`, and what stands behind is read as an
expression in which the parameters and the name of the function are known
(`Term.parse_definitionText`).

No expression has a colon in it (`Term.colon_notMem_of_ofExpression`). A colon can only be read as
part of the sign `:=`, which is kept from lexemes to tokens, and tokens with this sign are no chain
of operations. So the text of a definition whose body has a colon is never read.
-/

namespace Abacus

/-! ### Colons in texts -/

namespace Lexeme

/-- A colon is read as part of the sign `:=` or not at all. -/
theorem Matches.eq_define {l : Lexeme} {w rest : List Char} (h : Matches l w rest)
    (hcolon : ':' ∈ w) : l = define := by
  have hnumeral {n : Decimal.Numeral} {w : List Char} (hn : n.IsText w) : ∀ c ∈ w, c ≠ ':' :=
    hn.forall_mem (fun c hc => by rintro rfl; cases hc) (by simp)
  cases h with
  | mark h =>
    simp only [marks, List.mem_cons, Prod.mk.injEq, List.not_mem_nil, or_false] at h
    rcases h with ⟨rfl, -⟩ | ⟨rfl, -⟩ | ⟨rfl, -⟩ | ⟨rfl, -⟩ | ⟨rfl, -⟩ | ⟨-, rfl⟩
    case inr.inr.inr.inr.inr => rfl
    all_goals simp at hcolon
  | number h => exact absurd rfl (hnumeral h _ hcolon)
  | percent h =>
    rcases List.mem_append.1 hcolon with hcolon | hcolon
    · exact absurd rfl (hnumeral h _ hcolon)
    · simp at hcolon
  | word h => cases isWordChar_of_isName h hcolon
  | symbol h =>
    have hsymbols : ∀ p ∈ Operator.symbols, ∀ c ∈ p.1, c ≠ ':' :=
      Operator.forall_mem_symbol (by simp)
    exact absurd rfl (hsymbols _ h _ hcolon)

theorem Scans.define_mem {cs : List Char} {ls : List Lexeme} (h : Scans cs ls)
    (hcs : ':' ∈ cs) : define ∈ ls := by
  induction h with
  | nil => cases hcs
  | blank hc _ ih =>
    rcases List.mem_cons.1 hcs with rfl | hrest
    · cases hc
    · exact ih hrest
  | lexeme hnext _ ih =>
    obtain ⟨w, rfl, hmatch⟩ := exists_of_next? hnext
    rcases List.mem_append.1 hcs with hw | htail
    · rw [hmatch.eq_define hw]
      exact List.mem_cons_self
    · exact List.mem_cons_of_mem _ (ih htail)

end Lexeme

/-! ### The sign `:=` among tokens -/

theorem Token.define_mem_of_ofLexemesFrom {known : List String} {ls : List Lexeme}
    (h : .define ∈ ls) (groups : List OpenGroup) (converts : Bool) :
    .define ∈ ofLexemesFrom known groups converts ls := by
  induction ls generalizing groups converts with
  | nil => cases h
  | cons l ls ih =>
    rcases List.mem_cons.1 h with rfl | h
    · exact List.mem_cons_self
    · exact List.mem_cons_of_mem _ (ih h _ _)

theorem Chain.define_notMem_of_marks {level : Int} {previous : Option Token} {ts : List Token}
    {ms : List (Token × Option BinaryOp)} (h : marks level previous ts = .ok ms) :
    .define ∉ ts := by
  induction ts generalizing level previous ms with
  | nil => exact List.not_mem_nil
  | cons t ts ih =>
    obtain ⟨m, hm, h⟩ := bind_eq_ok_iff.1 h
    obtain ⟨ms, hms, -⟩ := bind_eq_ok_iff.1 h
    rw [List.mem_cons, not_or]
    refine ⟨?_, ih hms⟩
    rintro rfl
    cases hm

namespace Term

variable {known : List String}

/-- No expression has the sign `:=` in it. -/
theorem define_notMem_of_ofTokensAt {depth : Nat} {ts : List Token} {t : Term}
    (h : ofTokensAt depth ts = .ok t) : .define ∉ ts := by
  obtain ⟨-, -, c, hc⟩ := exists_chain_of_ofTokensAt h
  obtain ⟨ms, hms, -⟩ := bind_eq_ok_iff.1 hc
  exact Chain.define_notMem_of_marks hms

theorem colon_notMem_of_ofExpression {text : List Char} {t : Term}
    (h : ofExpression text known = .ok t) : ':' ∉ text := by
  intro hcolon
  obtain ⟨ts, hts, ht⟩ := bind_eq_ok_iff.1 h
  obtain ⟨ls, hscans, -, rfl⟩ := Token.exists_of_ofText hts
  exact define_notMem_of_ofTokensAt ht
    (Token.define_mem_of_ofLexemesFrom (hscans.define_mem hcolon) [] false)

/-- A space in front of an expression does not matter. -/
theorem ofExpression_cons_space (text : List Char) :
    ofExpression (' ' :: text) known = ofExpression text known := by
  have hscan : Lexeme.scan (' ' :: text) = Lexeme.scan text := by
    rw [Lexeme.scan, if_pos (by decide)]
  have hascii : ((' ' :: text).any fun c => 128 ≤ c.toNat) = text.any fun c => 128 ≤ c.toNat := by
    rw [List.any_cons]
    rfl
  simp only [ofExpression, Token.ofText, hscan, hascii]

theorem parse_eq_ofExpression {text : String} (h : ¬ [':', '='] <:+: text.toList) :
    parse text known = ofExpression text.toList known := by
  rw [parse, Head.split?_eq_none_iff.2 h]

/-- A text with the sign `:=` in it is read into an assignment, if it is read at all. -/
theorem exists_assign_of_parse {text : String} {t : Term} (h : parse text known = .ok t)
    (htext : [':', '='] <:+: text.toList) : ∃ x value, t = .assign x value := by
  unfold parse at h
  split at h
  · next hnone => exact absurd htext (Head.split?_eq_none_iff.1 hnone)
  · split at h
    · cases h
    · obtain ⟨value, -, rfl⟩ := map_eq_ok_iff.1 h
      exact ⟨_, value, rfl⟩
    · obtain ⟨body, -, h⟩ := bind_eq_ok_iff.1 h
      cases h
      exact ⟨_, _, rfl⟩

/-! ### The text of a definition -/

/-- The text that defines a function, given the text of its body. -/
def definitionText (name : String) (parameters : List String) (body : String) : String :=
  name ++ parenthesized (commaSeparated parameters) ++ " := " ++ body

/-- **The text of a definition is read by reading its body.** -/
theorem parse_definitionText {name : String} {parameters : List String} (hname : isName name.toList)
    (hparameters : ∀ x ∈ parameters, isName x.toList) (body : String) :
    parse (definitionText name parameters body) known =
      (fun t => .assign name (.literal (.function ⟨name, parameters, t⟩))) <$>
        ofExpression body.toList (name :: parameters ++ known) := by
  have htext : (definitionText name parameters body).toList =
      name.toList ++
          '(' :: ([',', ' '].intercalate (parameters.map String.toList) ++ [')', ' ']) ++
        ':' :: '=' :: ' ' :: body.toList := by
    simp [definitionText, toList_parenthesized, toList_commaSeparated]
  have hcolon : ∀ c ∈ name.toList ++
      '(' :: ([',', ' '].intercalate (parameters.map String.toList) ++ [')', ' ']), c ≠ ':' := by
    have hnames := Head.ne_of_isName_intercalate hparameters (d := ':') (by simp) rfl
    refine List.forall_mem_append.2 ⟨Head.ne_of_isName hname rfl, List.forall_mem_cons.2 ?_⟩
    exact ⟨by decide, List.forall_mem_append.2 ⟨hnames, by simp⟩⟩
  rw [parse, htext, Head.split?_append hcolon]
  simp only [Head.ofText?_call hname hparameters, ofExpression_cons_space]
  rfl

end Term

end Abacus
