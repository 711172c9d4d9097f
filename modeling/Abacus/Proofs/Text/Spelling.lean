import Abacus.Proofs.Text.Matching
import Abacus.Term.Statement

/-!
# Texts that spell tokens

What token a lexeme becomes depends on its place: a word is a name in the unit slot of a conversion,
whatever it spells elsewhere. `Spells known place text ts` says that a text which starts at a place
is read into the tokens `ts`, one lexeme after the other (`Spells.ofText_eq`).

Inside of an operand the place changes with every bracket and comma, but the operand as a whole ends
at the place at which it starts.
-/

namespace Abacus

open Lexeme (EndsOperand StartsOperand isBlank next?)

/-- The character that opens a bracket. -/
def Bracket.left : Bracket → Char
  | .round => '('
  | .curly => '\x7b'

/-- The character that closes a bracket. -/
def Bracket.right : Bracket → Char
  | .round => ')'
  | .curly => '\x7d'

/-- Where a lexeme stands: inside of which groups, and whether a conversion is in front of it. -/
structure Place where
  groups : List OpenGroup
  converts : Bool

namespace Place

/-- The place behind a token. -/
def after (place : Place) (t : Token) : Place :=
  ⟨Token.groupsAfter place.groups place.converts t, t.isConversion⟩

/-- A place at which an operand may start, where the name of a unit can stand or not. -/
structure AtOperand (place : Place) (unit : Bool) : Prop where
  converts : place.converts = false
  inUnitSlot : Token.inUnitSlot place.groups = unit

variable {place : Place} {unit : Bool}

theorem atOperand_start : AtOperand ⟨[], false⟩ false := ⟨rfl, rfl⟩

/-- Numbers, names and operators leave the groups as they are. -/
theorem AtOperand.after_eq (h : place.AtOperand unit) {t : Token}
    (ht : t.isOperand ∨ ∃ o, o ≠ .conversion ∧ t = .op o) : place.after t = place := by
  obtain ⟨groups, converts⟩ := place
  obtain ⟨rfl, -⟩ := h
  rcases ht with ht | ⟨o, ho, rfl⟩
  · cases t with
    | number | name => rfl
    | _ => cases ht
  · have hconversion : (Token.op o).isConversion = false := by
      cases o <;> first | rfl | exact absurd rfl ho
    rw [after, hconversion]
    rfl

end Place

/-! ### Words -/

/-- Whether the canonical spelling of an operator is read as the operator, where a unit can stand or
not. -/
def Operator.isLegible (known : List String) (unit : Bool) (o : Operator) : Bool :=
  !o.isWord || (!unit && !known.contains o.canonical)

/-- Whether a name is read as a name, where a unit can stand or not. -/
def nameIsLegible (known : List String) (unit : Bool) (x : String) : Bool :=
  unit || (Operator.find? x).isNone || known.contains x

theorem nameIsLegible_iff {known : List String} {unit : Bool} {x : String} :
    nameIsLegible known unit x ↔ unit ∨ Operator.find? x = none ∨ known.contains x := by
  rw [nameIsLegible, Bool.or_eq_true, Bool.or_eq_true, Option.isNone_iff_eq_none, or_assoc]

theorem Operator.isLegible_word {known : List String} {unit : Bool} {o : Operator}
    (h : o.isLegible known unit) (hword : o.isWord) :
    unit = false ∧ known.contains o.canonical = false := by
  simpa [Operator.isLegible, hword] using h

/-! ### Tokens that are spelled -/

/-- A text spells tokens from a place on. -/
inductive Spells (known : List String) : Place → List Char → List Token → Prop
  | nil (place : Place) : Spells known place [] []
  /-- White space between lexemes. -/
  | blank {place : Place} {c : Char} {text : List Char} {ts : List Token} (hc : isBlank c)
      (h : Spells known place text ts) : Spells known place (c :: text) ts
  /-- A lexeme that is the token `t`. -/
  | lexeme {place : Place} {text rest : List Char} {l : Lexeme} {t : Token} {ts : List Token}
      (hl : next? text = some (l, rest))
      (ht : Token.ofLexeme known (Token.inUnitSlot place.groups) l = t)
      (h : Spells known (place.after t) rest ts) : Spells known place text (t :: ts)

namespace Spells

variable {known : List String} {place : Place} {unit : Bool} {text : List Char} {ts : List Token}

/-- **Spelled tokens are read.** A text is cut into lexemes that become the tokens that it spells.
-/
theorem exists_lexemes (h : Spells known place text ts) :
    ∃ ls, Lexeme.scan text = .ok ls ∧
      Token.ofLexemesFrom known place.groups place.converts ls = ts := by
  induction h with
  | nil => exact ⟨[], by rw [Lexeme.scan], rfl⟩
  | blank hc _ ih =>
    obtain ⟨ls, hscan, htokens⟩ := ih
    refine ⟨ls, ?_, htokens⟩
    rw [Lexeme.scan, if_pos hc, hscan]
  | @lexeme place text rest l t ts hl ht _ ih =>
    obtain ⟨ls, hscan, htokens⟩ := ih
    refine ⟨l :: ls, ?_, by rw [Token.ofLexemesFrom, ht]; exact congrArg (t :: ·) htokens⟩
    rw [Lexeme.scan_of_next? hl, hscan]
    rfl

/-- What spells tokens is ASCII. -/
theorem isAscii (h : Spells known place text ts) : ∀ c ∈ text, c.toNat < 128 := by
  induction h with
  | nil => exact List.forall_mem_nil _
  | @blank _ c _ _ hc _ ih =>
    refine List.forall_mem_cons.2 ⟨?_, ih⟩
    simp only [isBlank, Bool.or_eq_true, beq_iff_eq] at hc
    rcases hc with (((rfl | rfl) | rfl) | rfl) | rfl <;> decide
  | lexeme hl _ _ ih =>
    obtain ⟨w, rfl, hmatch⟩ := Lexeme.exists_of_next? hl
    exact List.forall_mem_append.2 ⟨hmatch.isAscii, ih⟩

/-- **Spelled tokens are checked.** The tokens of a text are those that it spells, if they pass the
check. -/
theorem ofText_eq (h : Spells known ⟨[], false⟩ text ts) :
    Token.ofText text known = (do Token.check ts; return ts) := by
  obtain ⟨ls, hscan, htokens⟩ := h.exists_lexemes
  have htokens : Token.ofLexemes known ls = ts := htokens
  have hascii : (text.any fun c => 128 ≤ c.toNat) = false := by
    simpa only [List.any_eq_false, decide_eq_true_eq, Nat.not_le] using h.isAscii
  simp only [Token.ofText, hascii, hscan, ok_bind, htokens]
  rfl

theorem blanks {gap : List Char} (hgap : ∀ c ∈ gap, isBlank c) (h : Spells known place text ts) :
    Spells known place (gap ++ text) ts := by
  induction gap with
  | nil => exact h
  | cons c gap ih =>
    exact .blank (hgap c List.mem_cons_self) (ih fun d hd => hgap d (List.mem_cons_of_mem c hd))

/-! ### The texts of single tokens -/

theorem comma (h : Spells known (place.after .comma) text ts) :
    Spells known place (',' :: text) (.comma :: ts) :=
  .lexeme rfl rfl h

theorem opening (b : Bracket) (h : Spells known (place.after (.opening b)) text ts) :
    Spells known place (b.left :: text) (.opening b :: ts) := by
  cases b with
  | round => exact .lexeme rfl rfl h
  | curly => exact .lexeme rfl rfl h

theorem closing (b : Bracket) (h : Spells known (place.after (.closing b)) text ts) :
    Spells known place (b.right :: text) (.closing b :: ts) := by
  cases b with
  | round => exact .lexeme rfl rfl h
  | curly => exact .lexeme rfl rfl h

theorem space (h : Spells known place text ts) : Spells known place (' ' :: text) ts :=
  .blank rfl h

/-- A number in front of other text. -/
theorem number (hplace : place.AtOperand unit) {rest : List Char} {v : Value}
    (hnext : next? text = some (.number v, rest)) (h : Spells known place rest ts) :
    Spells known place text (.number v :: ts) := by
  refine .lexeme hnext rfl ?_
  rwa [hplace.after_eq (.inl rfl)]

/-- A name in front of other text. -/
theorem name (hplace : place.AtOperand unit) {x : String} (hx : isName x.toList)
    (hname : nameIsLegible known unit x) (hends : EndsOperand text)
    (h : Spells known place text ts) : Spells known place (x.toList ++ text) (.name x :: ts) := by
  have hnext := Lexeme.next?_name hx hends
  rw [String.ofList_toList] at hnext
  refine .lexeme hnext ?_ (by rwa [hplace.after_eq (.inl rfl)])
  rw [hplace.inUnitSlot]
  rcases nameIsLegible_iff.1 hname with hunit | hoperator | hknown
  · simp only [Token.ofLexeme, hunit, Bool.true_or, if_true]
  · simp [Token.ofLexeme, hoperator]
  · simp only [Token.ofLexeme, hknown, Bool.or_true, if_true]

/-- The canonical spelling of an operator that does not continue into the text behind it. -/
theorem operator (hplace : place.AtOperand unit) {o : Operator} (hlegible : o.isLegible known unit)
    (hends : o.isWord → EndsOperand text) (hstarts : o.isWord = false → StartsOperand text)
    (h : Spells known (place.after (.op o)) text ts) :
    Spells known place (o.canonical.toList ++ text) (.op o :: ts) := by
  by_cases hw : o.isWord
  · obtain ⟨rfl, hknown⟩ := Operator.isLegible_word hlegible hw
    have hnext := Lexeme.next?_name (o.isName_canonical hw) (hends hw)
    rw [String.ofList_toList] at hnext
    refine .lexeme hnext ?_ h
    have hfind := o.find?_canonical
    simp only [hplace.inUnitSlot, Token.ofLexeme, hknown, hfind, Bool.or_self, Bool.false_eq_true,
      if_false]
  · have hsymbol := Bool.eq_false_iff.2 hw
    exact .lexeme (Lexeme.next?_symbol hsymbol (hstarts hsymbol)) rfl h

end Spells

end Abacus
