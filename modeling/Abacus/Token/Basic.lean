import Abacus.Lexeme

/-!
# Tokens

A token is a lexeme whose role is settled. A word is a name if it is known, or if it spells no
operator, or if it stands where a conversion takes the name of a unit: in `convert(90, deg, rad)`
behind the first comma. Only the innermost group counts for the last rule, and only if the operator
stands directly in front of its parenthesis.
-/

namespace Abacus

/-- A piece of an expression. -/
inductive Token
  | number (value : Value)
  | name (name : String)
  | op (operator : Operator)
  | comma
  | define
  | opening (bracket : Bracket)
  | closing (bracket : Bracket)

/-- A group that is not closed yet. -/
structure OpenGroup where
  /-- Whether the group holds the operands of a unit conversion. -/
  isConversion : Bool
  /-- How many commas have been read at the level of the group. -/
  commas : Nat
  deriving DecidableEq, Repr

namespace Token

/-- Whether the innermost of the open groups takes the name of a unit next. -/
def inUnitSlot : List OpenGroup → Bool
  | g :: _ => g.isConversion && 0 < g.commas
  | [] => false

/-- The token of a lexeme, given the known names and whether a unit may stand here. -/
def ofLexeme (known : List String) (isUnit : Bool) : Lexeme → Token
  | .number v => number v
  | .word w =>
    if isUnit || known.contains w then name w
    else match Operator.find? w with
      | some o => op o
      | none => name w
  | .symbol o => op o
  | .comma => comma
  | .define => define
  | .opening b => opening b
  | .closing b => closing b

/-- The open groups after a token, where `converts` says that a unit conversion stands in front of
the token. -/
def groupsAfter (groups : List OpenGroup) (converts : Bool) : Token → List OpenGroup
  | opening b => ⟨converts && b == .round, 0⟩ :: groups
  | closing _ => groups.tail
  | comma =>
    match groups with
    | g :: outer => { g with commas := g.commas + 1 } :: outer
    | [] => []
  | _ => groups

/-- Whether a token is the operator of a unit conversion. -/
def isConversion : Token → Bool
  | op .conversion => true
  | _ => false

/-- The tokens of lexemes that stand inside the given open groups. -/
def ofLexemesFrom (known : List String) : List OpenGroup → Bool → List Lexeme → List Token
  | _, _, [] => []
  | groups, converts, l :: ls =>
    let t := ofLexeme known (inUnitSlot groups) l
    t :: ofLexemesFrom known (groupsAfter groups converts t) t.isConversion ls

/-- The tokens of the lexemes of a text. -/
def ofLexemes (known : List String) (ls : List Lexeme) : List Token :=
  ofLexemesFrom known [] false ls

/-! ### Kinds of token -/

/-- A number or a name. -/
def isOperand : Token → Bool
  | number _ | name _ => true
  | _ => false

/-- An opening bracket. -/
def isOpening : Token → Bool
  | opening _ => true
  | _ => false

/-- A closing bracket. -/
def isClosing : Token → Bool
  | closing _ => true
  | _ => false

/-- A comma. -/
def isComma : Token → Bool
  | comma => true
  | _ => false

/-- The sign `:=`. -/
def isDefine : Token → Bool
  | define => true
  | _ => false

/-- The operator that a token is. -/
def operator? : Token → Option Operator
  | op o => some o
  | _ => none

/-- Whether an operand ends with this token, so that an operator behind it is binary. -/
def endsOperand (t : Token) : Bool := t.isOperand || t.isClosing

/-- Whether an operand starts behind this token, so that an operator behind it is unary. -/
def startsElement (t : Token) : Bool := t.isOpening || t.isComma

end Token

end Abacus
