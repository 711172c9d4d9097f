import Abacus.Decimal.Layout
import Abacus.Operator

/-!
# Faults

Everything that can go wrong, as causes. A fault belongs to one of seven kinds (`Fault.kind`), which
callers may act on without reading the message, and has one wording (`Fault.message`).
-/

namespace Abacus

/-- The kinds of value, under the names that messages use. -/
inductive ValueKind
  | double | rational | percent | boolean | vector | matrix | function
  deriving DecidableEq, Repr

/-- The name of a kind of value. -/
def ValueKind.name : ValueKind → String
  | .double => "double"
  | .rational => "rational"
  | .percent => "percent"
  | .boolean => "boolean"
  | .vector => "vector"
  | .matrix => "matrix"
  | .function => "function"

/-- Two neighbouring tokens that cannot stand side by side. -/
inductive Misplacement
  /-- An operand follows an operand. -/
  | operands
  /-- An operand or a group follows a closed group. -/
  | afterGroup
  /-- A group follows something that is no function. -/
  | groupAfterOperand
  /-- An operator without binary meaning follows an operand. -/
  | unaryAfterOperand
  /-- An operator without unary meaning follows an operator. -/
  | binaryAfterOperator
  /-- An operator without unary meaning starts an element. -/
  | binaryAtStart
  /-- An operator ends an element. -/
  | operatorAtEnd
  /-- Nothing stands between two separators. -/
  | emptyElement
  deriving DecidableEq, Repr

/-- The wording for a misplacement. -/
def Misplacement.message : Misplacement → String
  | .operands => "a number/variable cannot be next to a number/variable"
  | .afterGroup => "an operand cannot be on the right of a closing parenthesis"
  | .groupAfterOperand => "only functions can be followed by an opening parenthesis"
  | .unaryAfterOperand => "a unary operator cannot be on the right of an operand"
  | .binaryAfterOperator => "a binary operator cannot be on the right of an operator"
  | .binaryAtStart =>
    "a binary operator cannot be on the right of an opening parenthesis or a comma"
  | .operatorAtEnd =>
    "an operator cannot be on the left of a closing parenthesis or a comma"
  | .emptyElement => "empty element between commas"

/-- The deepest nesting of groups, lists and operators in a text. -/
def maxNesting : Nat := 512

/-- Why a text was not understood or a term has no value. -/
inductive Fault
  -- reading a text
  | nonAscii
  | unreadable (rest : String)
  | emptyText
  | misplaced (which : Misplacement)
  | bracketMismatch
  | surplusClosing (position : Nat)
  | operatorAtEndOfText
  | emptyExpression
  | strayComma
  | strayDefine
  | missingLeftOperand (op : Operator)
  | emptyParentheses
  | raggedMatrix
  | unexpectedToken (shown : String)
  | invalidHead (head : String)
  -- using an operator
  | notBinary (op : Operator)
  | notUnary (op : Operator)
  | operandCount (op : Operator) (count : Nat)
  | arity (op : Operator) (count : Nat)
  -- evaluating
  | nestedAssignment (name : String)
  | deadHandle (index : Nat)
  | functionAsNumber (name : String)
  | functionAsVector (name : String)
  | functionAsMatrix (name : String)
  | functionAsElement (name : String)
  | functionReduced (name : String)
  | arithMismatch (op : Arith) (left right : ValueKind)
  | conditionalOperand (kind : ValueKind)
  | notFunction (name : String) (kind : ValueKind)
  | argumentCount (name : String) (expected got : Nat)
  | unknownVariable (name : String)
  | unknownFunction (name : String)
  | unordered (left right : Float)
  | unorderedPercents (left right : Float)
  | emptyExtremum
  | emptyMean
  | notNumber (kind : ValueKind) (shown : String)
  | zeroDenominator (numerator denominator : Int)
  | outOfRange (numerator denominator : Int)
  | factorialDomain (shown : String)
  | noFraction (x : Float)
  -- converting units
  | conversionOperand (kind : ValueKind)
  | conversionForm
  | noConverter
  | inconvertible (source target : String)
  -- limits
  | nesting
  | callDepth (limit : Nat)

namespace Fault

/-- The kinds of fault. -/
inductive Kind
  | syntactic | typeMismatch | unbound | notNumber | arithmetic | conversion | recursion
  deriving DecidableEq, Repr

/-- The name of a kind of fault. -/
def Kind.name : Kind → String
  | .syntactic => "syntax error"
  | .typeMismatch => "type mismatch"
  | .unbound => "unbound identifier"
  | .notNumber => "not a number"
  | .arithmetic => "arithmetic failure"
  | .conversion => "conversion failure"
  | .recursion => "recursion limit"

/-- The kind of a fault. -/
def kind : Fault → Kind
  | nonAscii | unreadable _ | emptyText | misplaced _ | bracketMismatch | surplusClosing _
  | operatorAtEndOfText | emptyExpression | strayComma | strayDefine | missingLeftOperand _
  | emptyParentheses | raggedMatrix | unexpectedToken _ | invalidHead _ | notBinary _ | notUnary _
  | operandCount _ _ | arity _ _ | nestedAssignment _ | deadHandle _ => .syntactic
  | functionAsNumber _ | functionAsVector _ | functionAsMatrix _ | functionAsElement _
  | functionReduced _ | arithMismatch _ _ _ | conditionalOperand _ | notFunction _ _
  | argumentCount _ _ _ => .typeMismatch
  | unknownVariable _ | unknownFunction _ => .unbound
  | unordered _ _ | unorderedPercents _ _ | emptyExtremum | emptyMean | notNumber _ _ => .notNumber
  | zeroDenominator _ _ | outOfRange _ _ | factorialDomain _ | noFraction _ => .arithmetic
  | conversionOperand _ | conversionForm | noConverter | inconvertible _ _ => .conversion
  | nesting | callDepth _ => .recursion

/-- The name of a compiled term in messages. -/
def handleName (index : Nat) : String := "TreeHandle(" ++ Decimal.integer index ++ ")"

/-- The wording of a fault. -/
def message : Fault → String
  | nonAscii => "only ascii characters are supported"
  | unreadable rest => "how to parse the beginning of " ++ rest
  | emptyText => "cannot parse empty string"
  | misplaced which => which.message
  | bracketMismatch => "parentheses mismatch"
  | surplusClosing position =>
    "too many closing parentheses until position " ++ Decimal.integer position
  | operatorAtEndOfText => "the last element cannot be an operator"
  | emptyExpression => "empty expression"
  | strayComma => "unexpected ',' outside of a group"
  | strayDefine => "':=' is only allowed at the top level"
  | missingLeftOperand op => "binary operator '" ++ op.canonical ++ "' misses its left operand"
  | emptyParentheses => "empty parentheses"
  | raggedMatrix => "all rows of a matrix need the same length"
  | unexpectedToken shown => "unexpected token " ++ shown
  | invalidHead head => "invalid left-hand side '" ++ head ++ "' of ':='"
  | notBinary op => "operator '" ++ op.canonical ++ "' is not binary"
  | notUnary op => "operator '" ++ op.canonical ++ "' is not unary"
  | operandCount op count =>
    "operator '" ++ op.canonical ++ "' takes one or two operands, got " ++ Decimal.integer count
  | arity op count =>
    "operator '" ++ op.canonical ++ "' cannot be applied to " ++ Decimal.integer count ++
      " operands"
  | nestedAssignment name => "assignment to '" ++ name ++ "' is only allowed at the top level"
  | deadHandle index => "no compiled expression for " ++ handleName index
  | functionAsNumber name => "function '" ++ name ++ "' cannot be used as a number"
  | functionAsVector name => "function '" ++ name ++ "' cannot be used as a vector"
  | functionAsMatrix name => "function '" ++ name ++ "' cannot be used as a matrix"
  | functionAsElement name =>
    "cannot apply an elementwise operator to function '" ++ name ++ "'"
  | functionReduced name => "cannot reduce function '" ++ name ++ "'"
  | arithMismatch op left right =>
    "cannot apply '" ++ op.symbol ++ "' to " ++ left.name ++ " and " ++ right.name
  | conditionalOperand kind => "if expects (condition, then, else), got " ++ kind.name
  | notFunction name kind => "'" ++ name ++ "' is a " ++ kind.name ++ " and not a function"
  | argumentCount name expected got =>
    "function '" ++ name ++ "' expects " ++ Decimal.integer expected ++ " arguments, got " ++
      Decimal.integer got
  | unknownVariable name => "unknown variable '" ++ name ++ "'"
  | unknownFunction name => "unknown function '" ++ name ++ "'"
  | unordered left right =>
    "cannot order " ++ Decimal.plain left ++ " and " ++ Decimal.plain right
  | unorderedPercents left right =>
    "cannot order " ++ Decimal.plain left ++ "% and " ++ Decimal.plain right ++ "%"
  | emptyExtremum => "extremum of an empty vector"
  | emptyMean => "mean of an empty vector"
  | notNumber kind shown => "expected a number, got a " ++ kind.name ++ " '" ++ shown ++ "'"
  | zeroDenominator numerator denominator =>
    "denominator of " ++ Decimal.integer numerator ++ "/" ++ Decimal.integer denominator ++
      " is zero"
  | outOfRange numerator denominator =>
    Decimal.integer numerator ++ "/" ++ Decimal.integer denominator ++ " is out of range"
  | factorialDomain shown =>
    "factorial is only defined for non-negative integers, got " ++ shown
  | noFraction x => "cannot approximate " ++ Decimal.plain x ++ " by a fraction"
  | conversionOperand kind =>
    "conversion needs bare unit names as in convert(value, from, to), got " ++ kind.name
  | conversionForm => "expected convert(value, from_unit, to_unit) with bare unit names"
  | noConverter => "no unit converter has been set"
  | inconvertible source target => "cannot convert " ++ source ++ " to " ++ target
  | nesting => "expression is nested deeper than " ++ Decimal.integer maxNesting
  | callDepth limit => "function calls are nested deeper than " ++ Decimal.integer limit

/-- Kind and wording on one line. -/
def text (f : Fault) : String := f.kind.name ++ ": " ++ f.message

end Fault

end Abacus
