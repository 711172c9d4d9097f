import Abacus.Value.Basic

/-!
# Writing values and terms

Terms are written with as few parentheses as their grouping needs. An operand of a binary operation
is put into parentheses if it binds less tightly, or as tightly on the side from which the chain
does not group, and also if it is a literal that would be read differently there: a proper fraction,
a negative number, a function. Operands of unary operations are always in parentheses.
-/

namespace Abacus

/-- Texts with commas between them. -/
def commaSeparated (texts : List String) : String := String.intercalate ", " texts

/-- Texts in braces with commas between them. -/
def braced (texts : List String) : String := "\x7b" ++ commaSeparated texts ++ "\x7d"

/-- A text in parentheses. -/
def parenthesized (text : String) : String := "(" ++ text ++ ")"

/-- Whether a literal needs parentheses as an operand. -/
def Value.needsParentheses : Value → Bool
  | .rational q => !q.isInteger || q.numerator < 0
  | .double x => Binary64.isNegative x
  | .percent x => Binary64.isNegative x
  | .function _ => true
  | _ => false

/-- How a binary operation is written between its operands; words are set off by spaces. -/
def BinaryOp.separator (op : BinaryOp) : String :=
  let symbol := op.operator.canonical
  if symbol.toList.head?.any Char.isAlpha then " " ++ symbol ++ " " else symbol

/-- The binary operation at the root of a term. -/
def Term.binaryOp? : Term → Option BinaryOp
  | .binary op _ _ => some op
  | _ => none

/-- Whether a term needs parentheses as the left operand of a binary operation. -/
def BinaryOp.wrapsLeft (op : BinaryOp) (left : Term) : Bool :=
  left.binaryOp?.any fun inner =>
    inner.priority < op.priority || (inner.priority == op.priority && op.isRightAssoc)

/-- Whether a term needs parentheses as the right operand of a binary operation. -/
def BinaryOp.wrapsRight (op : BinaryOp) (right : Term) : Bool :=
  right.binaryOp?.any fun inner =>
    inner.priority < op.priority || (inner.priority == op.priority && !op.isRightAssoc)

/-- Whether a term needs parentheses as an operand of any binary operation. -/
def Term.alwaysWrapped : Term → Bool
  | .literal v => v.needsParentheses
  | .assign _ _ => true
  | _ => false

/-- The text of an operand, in parentheses if they are needed. -/
def Term.operandText (t : Term) (text : String) (wraps : Bool) : String :=
  if wraps || t.alwaysWrapped then parenthesized text else text

mutual

/-- The text of a value. -/
def Value.text : Value → String
  | .double x => Decimal.literal x
  | .rational q => q.text
  | .percent magnitude => Decimal.plain magnitude ++ "%"
  | .boolean b => if b then "true" else "false"
  | .vector elements => braced (Value.texts elements)
  | .matrix rows => braced (Value.rowTexts rows)
  | .function f => f.text

/-- The texts of values. -/
def Value.texts : List Value → List String
  | [] => []
  | v :: vs => v.text :: Value.texts vs

/-- The texts of rows of values. -/
def Value.rowTexts : List (List Value) → List String
  | [] => []
  | row :: rows => braced (Value.texts row) :: Value.rowTexts rows

/-- The text of a definition. -/
def Definition.text : Definition → String
  | ⟨name, parameters, body⟩ =>
    name ++ parenthesized (commaSeparated parameters) ++ " := " ++ body.text

/-- The text of a term. Under a unary operator a list of terms loses its braces; an assignment of a
function to its own name is written as a definition. -/
def Term.text : Term → String
  | .literal v => v.text
  | .var name => name
  | .unary op (.vector elements) =>
    op.operator.canonical ++ parenthesized (commaSeparated (Term.texts elements))
  | .unary op operand => op.operator.canonical ++ parenthesized operand.text
  | .binary op left right =>
    left.operandText left.text (op.wrapsLeft left) ++ op.separator ++
      right.operandText right.text (op.wrapsRight right)
  | .vector elements => braced (Term.texts elements)
  | .matrix rows => braced (Term.rowTexts rows)
  | .call name arguments => name ++ parenthesized (commaSeparated (Term.texts arguments))
  | .assign name (.literal (.function f)) =>
    if f.name = name then f.text else name ++ " := " ++ f.text
  | .assign name value => name ++ " := " ++ value.text

/-- The texts of terms. -/
def Term.texts : List Term → List String
  | [] => []
  | t :: ts => t.text :: Term.texts ts

/-- The texts of rows of terms. -/
def Term.rowTexts : List (List Term) → List String
  | [] => []
  | row :: rows => braced (Term.texts row) :: Term.rowTexts rows

end

end Abacus
