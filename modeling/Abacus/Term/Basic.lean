import Abacus.Value.Text

/-!
# Building terms

Terms are built by functions that keep them in a normal form: a vector or matrix whose entries are
all literals is itself a literal, and an operator is applied only to as many operands as it takes.
-/

namespace Abacus.Term

/-- The value of a literal. -/
def literal? : Term → Option Value
  | literal v => some v
  | _ => none

/-- The values of terms that are all literals. -/
def literals? : List Term → Option (List Value)
  | [] => some []
  | t :: ts =>
    match t.literal?, literals? ts with
    | some v, some vs => some (v :: vs)
    | _, _ => none

/-- The values of rows of terms that are all literals. -/
def literalRows? : List (List Term) → Option (List (List Value))
  | [] => some []
  | row :: rows =>
    match literals? row, literalRows? rows with
    | some vs, some vss => some (vs :: vss)
    | _, _ => none

/-- A vector of terms, which is a literal if all of them are. -/
def ofElements (elements : List Term) : Term :=
  match literals? elements with
  | some vs => literal (.vector vs)
  | none => vector elements

/-- A matrix of terms, which is a literal if all of them are. -/
def ofRows (rows : List (List Term)) : Term :=
  match literalRows? rows with
  | some vss => literal (.matrix vss)
  | none => matrix rows

/-- An operator on operands, if it takes as many. -/
def ofOperator (op : Operator) (operands : List Term) : Except Fault Term :=
  match operands, op.unary?, op.binary? with
  | [t], some u, _ => .ok (unary u t)
  | [s, t], _, some b => .ok (binary b s t)
  | _, _, _ => .error (.arity op operands.length)

/-! ### Names in a term -/

mutual

/-- The names of the variables and called functions of a term, from left to right. Names inside
literals do not count. -/
def names : Term → List String
  | literal _ => []
  | var name => [name]
  | unary _ operand => names operand
  | binary _ left right => names left ++ names right
  | vector elements => namesOfElements elements
  | matrix rows => namesOfRows rows
  | call name arguments => name :: namesOfElements arguments
  | assign _ value => names value

/-- The names in a list of terms. -/
def namesOfElements : List Term → List String
  | [] => []
  | t :: ts => names t ++ namesOfElements ts

/-- The names in rows of terms. -/
def namesOfRows : List (List Term) → List String
  | [] => []
  | row :: rows => namesOfElements row ++ namesOfRows rows

end

/-- Adds a name to a sorted list, unless it is there. -/
def insertName (name : String) : List String → List String
  | [] => [name]
  | x :: xs =>
    if name < x then name :: x :: xs
    else if name = x then x :: xs
    else x :: insertName name xs

/-- The names of the variables and called functions of a term, sorted and each only once. -/
def identifiers (t : Term) : List String := t.names.foldr insertName []

end Abacus.Term
