/-!
# Operators

An operator is a word or a symbol of the language. It may have a binary meaning, a unary meaning, or
both: `-` subtracts and negates. The meanings are types of their own, `BinaryOp` and `UnaryOp`, so
that a term can only apply an operator to as many operands as it takes.

Every operator has one or more spellings. The first is the canonical one, in which terms are written
out; all of them are read in any letter case. Spellings that do not start with a letter are
recognised anywhere in a text, the longest first, so that `**` is never read as two times `*`.
-/

namespace Abacus

/-! ### Meanings -/

/-- The arithmetic of two numbers. -/
inductive Arith
  | add | sub | mul | div | pow | rem
  deriving DecidableEq, Repr

/-- The symbol under which an arithmetic operation appears in messages. -/
def Arith.symbol : Arith → String
  | .add => "+"
  | .sub => "-"
  | .mul => "*"
  | .div => "/"
  | .pow => "^"
  | .rem => "mod"

/-- The comparison of two values. -/
inductive Relation
  | equal | unequal | less | lessEqual | greater | greaterEqual
  deriving DecidableEq, Repr

/-- Whether a relation holds between values in the given order. -/
def Relation.holds : Relation → Ordering → Bool
  | .equal, o => o == .eq
  | .unequal, o => o != .eq
  | .less, o => o == .lt
  | .lessEqual, o => o != .gt
  | .greater, o => o == .gt
  | .greaterEqual, o => o != .lt

/-- What an operator between two operands does. -/
inductive BinaryOp
  | arith (op : Arith)
  | relation (rel : Relation)
  | and
  | or
  deriving DecidableEq, Repr

/-- A function of an angle. -/
inductive Circular
  | sin | cos | tan
  deriving DecidableEq, Repr

/-- A function on doubles that works on each element of a structure by itself. -/
inductive RealFunction
  | sinh | cosh | tanh | sqrt | cbrt | exp | ln | log10 | log2 | fract | toDegrees | toRadians
  deriving DecidableEq, Repr

/-- A way to reach an integer. -/
inductive Rounding
  | floor | ceil | round | trunc
  deriving DecidableEq, Repr

/-- What an operator in front of one operand does. -/
inductive UnaryOp
  | plus | minus | not
  | circular (f : Circular)
  | arc (f : Circular)
  | real (f : RealFunction)
  | abs | sign
  | rounding (mode : Rounding)
  | factorial | rational
  | sum | count | min | max | mean
  | transpose
  | conditional
  | conversion
  deriving DecidableEq, Repr

/-- How tightly a binary operation binds; a larger number binds tighter. -/
def BinaryOp.priority : BinaryOp → Nat
  | .and | .or => 1
  | .relation _ => 2
  | .arith .add | .arith .sub => 3
  | .arith .mul | .arith .div | .arith .rem => 4
  | .arith .pow => 5

/-- Whether a chain of a binary operation groups from the right. Only powers do: `2^3^2` is
`2^(3^2)`. -/
def BinaryOp.isRightAssoc : BinaryOp → Bool
  | .arith .pow => true
  | _ => false

/-! ### Words and symbols -/

/-- An operator as it is written. -/
inductive Operator
  | plus | minus | times | divide | remainder | power
  | equal | unequal | less | lessEqual | greater | greaterEqual
  | and | or | not
  | sin | cos | tan | asin | acos | atan | sinh | cosh | tanh
  | sqrt | cbrt | exp | ln | log10 | log2
  | abs | sign | floor | ceil | round | trunc | fract | factorial | rational
  | degrees | radians
  | sum | count | min | max | mean | transpose
  | conditional | conversion
  deriving DecidableEq, Repr

namespace Operator

/-- All operators. -/
def all : List Operator :=
  [plus, minus, times, divide, remainder, power,
    equal, unequal, less, lessEqual, greater, greaterEqual,
    and, or, not,
    sin, cos, tan, asin, acos, atan, sinh, cosh, tanh,
    sqrt, cbrt, exp, ln, log10, log2,
    abs, sign, floor, ceil, round, trunc, fract, factorial, rational,
    degrees, radians,
    sum, count, min, max, mean, transpose,
    conditional, conversion]

/-- The spellings of an operator, the canonical one first, all in lower case. -/
def spellings : Operator → List String
  | plus => ["+", "plus"]
  | minus => ["-", "minus"]
  | times => ["*", "times", "mul", "multiply"]
  | divide => ["/", "div", "divide", "over"]
  | remainder => ["mod", "rem"]
  | power => ["^", "**", "pow"]
  | equal => ["=="]
  | unequal => ["!=", "<>"]
  | less => ["<"]
  | lessEqual => ["<="]
  | greater => [">"]
  | greaterEqual => [">="]
  | and => ["and", "&&"]
  | or => ["or", "||"]
  | not => ["not", "!"]
  | sin => ["sin"]
  | cos => ["cos"]
  | tan => ["tan"]
  | asin => ["asin", "arcsin"]
  | acos => ["acos", "arccos"]
  | atan => ["atan", "arctan"]
  | sinh => ["sinh"]
  | cosh => ["cosh"]
  | tanh => ["tanh"]
  | sqrt => ["sqrt"]
  | cbrt => ["cbrt"]
  | exp => ["exp"]
  | ln => ["ln", "log"]
  | log10 => ["log10", "lg"]
  | log2 => ["log2", "lb"]
  | abs => ["abs"]
  | sign => ["sign", "signum", "sgn"]
  | floor => ["floor"]
  | ceil => ["ceil"]
  | round => ["round"]
  | trunc => ["trunc"]
  | fract => ["fract"]
  | factorial => ["fact", "factorial"]
  | rational => ["rational", "frac"]
  | degrees => ["deg", "degrees"]
  | radians => ["rad", "radians"]
  | sum => ["sum"]
  | count => ["count", "len", "length"]
  | min => ["min"]
  | max => ["max"]
  | mean => ["mean", "avg", "average"]
  | transpose => ["transpose", "trans"]
  | conditional => ["if"]
  | conversion => ["convert", "to", "in", "as"]

/-- The spelling in which an operator is written out. -/
def canonical (o : Operator) : String := o.spellings.headD ""

/-- The binary meaning of an operator, if it has one. -/
def binary? : Operator → Option BinaryOp
  | plus => some (.arith .add)
  | minus => some (.arith .sub)
  | times => some (.arith .mul)
  | divide => some (.arith .div)
  | remainder => some (.arith .rem)
  | power => some (.arith .pow)
  | equal => some (.relation .equal)
  | unequal => some (.relation .unequal)
  | less => some (.relation .less)
  | lessEqual => some (.relation .lessEqual)
  | greater => some (.relation .greater)
  | greaterEqual => some (.relation .greaterEqual)
  | and => some .and
  | or => some .or
  | _ => none

/-- The unary meaning of an operator, if it has one. -/
def unary? : Operator → Option UnaryOp
  | plus => some .plus
  | minus => some .minus
  | not => some .not
  | sin => some (.circular .sin)
  | cos => some (.circular .cos)
  | tan => some (.circular .tan)
  | asin => some (.arc .sin)
  | acos => some (.arc .cos)
  | atan => some (.arc .tan)
  | sinh => some (.real .sinh)
  | cosh => some (.real .cosh)
  | tanh => some (.real .tanh)
  | sqrt => some (.real .sqrt)
  | cbrt => some (.real .cbrt)
  | exp => some (.real .exp)
  | ln => some (.real .ln)
  | log10 => some (.real .log10)
  | log2 => some (.real .log2)
  | abs => some .abs
  | sign => some .sign
  | floor => some (.rounding .floor)
  | ceil => some (.rounding .ceil)
  | round => some (.rounding .round)
  | trunc => some (.rounding .trunc)
  | fract => some (.real .fract)
  | factorial => some .factorial
  | rational => some .rational
  | degrees => some (.real .toDegrees)
  | radians => some (.real .toRadians)
  | sum => some .sum
  | count => some .count
  | min => some .min
  | max => some .max
  | mean => some .mean
  | transpose => some .transpose
  | conditional => some .conditional
  | conversion => some .conversion
  | _ => none

/-- The operator with a spelling, in any letter case. Letter case is that of the ASCII letters,
which is all that matters: no other letter has a letter of a spelling as its lower case. -/
def find? (word : String) : Option Operator :=
  let lower := word.toLower
  all.find? fun o => o.spellings.contains lower

/-- The spellings that do not start with a letter. None has more than two characters, and those that
have two come first. -/
def symbols : List (List Char × Operator) :=
  let spelled := all.flatMap fun o => o.spellings.map fun s => (s.toList, o)
  let symbolic := spelled.filter fun p => !p.1.head?.any Char.isAlpha
  symbolic.filter (fun p => 1 < p.1.length) ++ symbolic.filter (fun p => p.1.length ≤ 1)

/-- The longest symbol at the front of a text, as its operator and the rest of the text. -/
def symbol? (cs : List Char) : Option (Operator × List Char) :=
  (symbols.find? fun p => p.1.isPrefixOf cs).map fun p => (p.2, cs.drop p.1.length)

end Operator

/-- The operator that writes a binary operation. -/
def BinaryOp.operator : BinaryOp → Operator
  | .arith .add => .plus
  | .arith .sub => .minus
  | .arith .mul => .times
  | .arith .div => .divide
  | .arith .rem => .remainder
  | .arith .pow => .power
  | .relation .equal => .equal
  | .relation .unequal => .unequal
  | .relation .less => .less
  | .relation .lessEqual => .lessEqual
  | .relation .greater => .greater
  | .relation .greaterEqual => .greaterEqual
  | .and => .and
  | .or => .or

/-- The operator that writes a unary operation. -/
def UnaryOp.operator : UnaryOp → Operator
  | .plus => .plus
  | .minus => .minus
  | .not => .not
  | .circular .sin => .sin
  | .circular .cos => .cos
  | .circular .tan => .tan
  | .arc .sin => .asin
  | .arc .cos => .acos
  | .arc .tan => .atan
  | .real .sinh => .sinh
  | .real .cosh => .cosh
  | .real .tanh => .tanh
  | .real .sqrt => .sqrt
  | .real .cbrt => .cbrt
  | .real .exp => .exp
  | .real .ln => .ln
  | .real .log10 => .log10
  | .real .log2 => .log2
  | .real .fract => .fract
  | .real .toDegrees => .degrees
  | .real .toRadians => .radians
  | .abs => .abs
  | .sign => .sign
  | .rounding .floor => .floor
  | .rounding .ceil => .ceil
  | .rounding .round => .round
  | .rounding .trunc => .trunc
  | .factorial => .factorial
  | .rational => .rational
  | .sum => .sum
  | .count => .count
  | .min => .min
  | .max => .max
  | .mean => .mean
  | .transpose => .transpose
  | .conditional => .conditional
  | .conversion => .conversion

@[simp] theorem BinaryOp.binary?_operator (op : BinaryOp) : op.operator.binary? = some op := by
  cases op with
  | arith op => cases op <;> rfl
  | relation rel => cases rel <;> rfl
  | and => rfl
  | or => rfl

@[simp] theorem UnaryOp.unary?_operator (op : UnaryOp) : op.operator.unary? = some op := by
  cases op with
  | circular f => cases f <;> rfl
  | arc f => cases f <;> rfl
  | real f => cases f <;> rfl
  | rounding mode => cases mode <;> rfl
  | _ => rfl

end Abacus
