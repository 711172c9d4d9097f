import Abacus.Value.Text

/-!
# Inspection

A second way to write values and terms, which shows what their text hides: the guise of each number,
both parts of each fraction, and the exact shape of a term. Equal inspections mean equal structure,
up to the sign and payload of NaN.
-/

namespace Abacus

/-- Both parts of a fraction, also of an integer. -/
def Fraction.inspect (q : Fraction) : String :=
  Decimal.integer q.numerator ++ "/" ++ Decimal.integer q.denominator

/-- Texts in square brackets with commas between them. -/
def bracketed (texts : List String) : String := "[" ++ commaSeparated texts ++ "]"

mutual

/-- The inspection of a value. -/
def Value.inspect : Value → String
  | .double x => "d:" ++ Decimal.literal x
  | .rational q => "r:" ++ q.inspect
  | .percent magnitude => "p:" ++ Decimal.literal magnitude
  | .boolean b => if b then "b:true" else "b:false"
  | .vector elements => "v" ++ bracketed (Value.inspectElements elements)
  | .matrix rows => "m" ++ bracketed (Value.inspectRows rows)
  | .function f => f.inspect

/-- The inspections of values. -/
def Value.inspectElements : List Value → List String
  | [] => []
  | v :: vs => v.inspect :: Value.inspectElements vs

/-- The inspections of rows of values. -/
def Value.inspectRows : List (List Value) → List String
  | [] => []
  | row :: rows => bracketed (Value.inspectElements row) :: Value.inspectRows rows

/-- The inspection of a definition. -/
def Definition.inspect : Definition → String
  | ⟨name, parameters, body⟩ =>
    "f:" ++ name ++ parenthesized (commaSeparated parameters) ++ " => " ++ body.inspect

/-- The inspection of a term. -/
def Term.inspect : Term → String
  | .literal v => "#" ++ v.inspect
  | .var name => "$" ++ name
  | .unary op operand => parenthesized (op.operator.canonical ++ " " ++ operand.inspect)
  | .binary op left right =>
    "(" ++ op.operator.canonical ++ " " ++ left.inspect ++ " " ++ right.inspect ++ ")"
  | .vector elements => "vec" ++ bracketed (Term.inspectElements elements)
  | .matrix rows => "mat" ++ bracketed (Term.inspectRows rows)
  | .call name arguments => "call:" ++ name ++ bracketed (Term.inspectElements arguments)
  | .assign name value => parenthesized (":= " ++ name ++ " " ++ value.inspect)

/-- The inspections of terms. -/
def Term.inspectElements : List Term → List String
  | [] => []
  | t :: ts => t.inspect :: Term.inspectElements ts

/-- The inspections of rows of terms. -/
def Term.inspectRows : List (List Term) → List String
  | [] => []
  | row :: rows => bracketed (Term.inspectElements row) :: Term.inspectRows rows

end

end Abacus
