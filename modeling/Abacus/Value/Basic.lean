import Abacus.Fraction.Approximation

/-!
# Values and terms

A value is what an evaluation yields: a number in one of four guises, a vector, a matrix, or a
defined function. A term is what a text is read into. The two are defined together, as the body of a
defined function is a term and as literals are values.

The guises of numbers form a tower. Fractions combine exactly. Percentages store their magnitude, so
`10%` stores ten and is worth a tenth, and booleans count as zero and one.

Equality of values (`==`) is structural, except that scalars of different guises are equal if they
are worth the same; that of terms compares their literals in this way.
-/

namespace Abacus

mutual

/-- The result of an evaluation. -/
inductive Value
  | double (x : Float)
  | rational (q : Fraction)
  | percent (magnitude : Float)
  | boolean (b : Bool)
  | vector (elements : List Value)
  | matrix (rows : List (List Value))
  | function (definition : Definition)

/-- A function defined as `name(parameters) := body`. -/
structure Definition where
  name : String
  parameters : List String
  body : Term

/-- An unevaluated expression. -/
inductive Term
  | literal (value : Value)
  | var (name : String)
  | unary (op : UnaryOp) (operand : Term)
  | binary (op : BinaryOp) (left right : Term)
  | vector (elements : List Term)
  | matrix (rows : List (List Term))
  /-- A call of a defined function. -/
  | call (name : String) (arguments : List Term)
  /-- An assignment, which has a meaning only as the whole of a text. -/
  | assign (name : String) (value : Term)

end

instance : Inhabited Value := ⟨.rational .zero⟩

instance : Inhabited Term := ⟨.literal default⟩

namespace Value

/-- The exact zero, with which structures of different sizes are padded. -/
def zero : Value := .rational .zero

/-- An integer as an exact value, held at the ends of the range if it does not fit. -/
def ofInt (n : Int) : Value := .rational (.ofInt n)

/-- The kind of a value. -/
def kind : Value → ValueKind
  | double _ => .double
  | rational _ => .rational
  | percent _ => .percent
  | boolean _ => .boolean
  | vector _ => .vector
  | matrix _ => .matrix
  | function _ => .function

/-- What a scalar is worth as a double; structures and functions are no scalars. -/
def scalar? : Value → Option Float
  | double x => some x
  | rational q => some q.toFloat
  | percent magnitude => some (magnitude / 100.0)
  | boolean b => some (if b then 1.0 else 0.0)
  | _ => none

/-- Whether a value is a number in one of its guises. -/
def isScalar (v : Value) : Bool := v.scalar?.isSome

end Value

/-! ### Equality -/

mutual

/-- Equality of values. -/
def Value.beq : Value → Value → Bool
  | .rational p, .rational q => p == q
  | .percent x, .percent y => x == y
  | .boolean a, .boolean b => a == b
  | .vector xs, .vector ys => Value.beqElements xs ys
  | .matrix xs, .matrix ys => Value.beqRows xs ys
  | .function f, .function g => f.beq g
  | v, w =>
    match v.scalar?, w.scalar? with
    | some x, some y => x == y
    | _, _ => false

/-- Equality of lists of values, element by element. -/
def Value.beqElements : List Value → List Value → Bool
  | [], [] => true
  | x :: xs, y :: ys => x.beq y && Value.beqElements xs ys
  | _, _ => false

/-- Equality of rows of values. -/
def Value.beqRows : List (List Value) → List (List Value) → Bool
  | [], [] => true
  | x :: xs, y :: ys => Value.beqElements x y && Value.beqRows xs ys
  | _, _ => false

/-- Equality of definitions: the same name, the same parameters and equal bodies. -/
def Definition.beq : Definition → Definition → Bool
  | ⟨name, parameters, body⟩, g => name == g.name && parameters == g.parameters && body.beq g.body

/-- Equality of terms. -/
def Term.beq : Term → Term → Bool
  | .literal v, .literal w => v.beq w
  | .var x, .var y => x == y
  | .unary f s, .unary g t => f == g && s.beq t
  | .binary f s s', .binary g t t' => f == g && s.beq t && s'.beq t'
  | .vector ss, .vector ts => Term.beqElements ss ts
  | .matrix ss, .matrix ts => Term.beqRows ss ts
  | .call x ss, .call y ts => x == y && Term.beqElements ss ts
  | .assign x s, .assign y t => x == y && s.beq t
  | _, _ => false

/-- Equality of lists of terms. -/
def Term.beqElements : List Term → List Term → Bool
  | [], [] => true
  | s :: ss, t :: ts => s.beq t && Term.beqElements ss ts
  | _, _ => false

/-- Equality of rows of terms. -/
def Term.beqRows : List (List Term) → List (List Term) → Bool
  | [], [] => true
  | s :: ss, t :: ts => Term.beqElements s t && Term.beqRows ss ts
  | _, _ => false

end

instance : BEq Value := ⟨Value.beq⟩

instance : BEq Definition := ⟨Definition.beq⟩

instance : BEq Term := ⟨Term.beq⟩

end Abacus
