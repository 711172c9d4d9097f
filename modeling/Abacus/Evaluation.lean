import Abacus.Bindings
import Abacus.Operation

/-!
# Evaluation

The value of a term in a scope. Names are looked up among the parameters of the function whose body
is being evaluated, then among the global bindings. Only the chosen branch of a condition is
evaluated, and a conversion takes its units as bare names.

Calls may nest only so deep. `Scope.evalThen` evaluates one body: it is given what a call does with
a definition and its bound parameters, or nothing where no further call is allowed, and recurses on
the term. `Scope.evalWithin` recurses on the number of nested calls that are left.

`evalThen` is told what to do with the value. An operation hands its left operand down together with
what is left to do, so a chain of operations grouped from the left is walked to its first operand
and from there to its last, however long it is.
-/

namespace Abacus

/-- A conversion of numbers between units that are given by name. -/
abbrev Converter := (x : Float) → (source target : String) → Except Fault Float

/-- What the evaluation of a term depends on. -/
structure Scope where
  globals : Bindings
  angleUnit : AngleUnit
  settings : Settings
  converter : Option Converter

namespace Scope

/-- What operators may consult. -/
def operationContext (s : Scope) : OperationContext := ⟨s.angleUnit, s.settings⟩

/-- The value of a name; parameters come before global bindings. -/
def lookup? (s : Scope) (locals : Bindings) (name : String) : Option Value :=
  match locals.get? name with
  | some v => some v
  | none => s.globals.get? name

/-- Converts each element of a value between two units. -/
def convert (convert : Converter) (source target : String) (v : Value) : Except Fault Value :=
  v.mapLeaves fun x => do return .double (← convert (← x.toNumber) source target)

/-- What becomes of a definition and its bound parameters in a call. -/
abbrev Enter := Definition → Bindings → Except Fault Value

mutual

/-- Evaluates a term and passes its value on. -/
def evalThen (s : Scope) (enter : Option Enter) (locals : Bindings) :
    Term → (Value → Except Fault Value) → Except Fault Value
  | .literal v, next => next v
  | .var name, next =>
    match s.lookup? locals name with
    | some v => next v
    | none => .error (.unknownVariable name)
  | .unary .conditional (.vector [condition, yes, no]), next => do
    let c ← evalThen s enter locals condition .ok
    if ← c.toBool then evalThen s enter locals yes next else evalThen s enter locals no next
  | .unary .conversion (.vector [operand, .var source, .var target]), next =>
    match s.converter with
    | none => .error .noConverter
    | some f => do
      let v ← evalThen s enter locals operand .ok
      next (← convert f source target v)
  | .unary .conversion (.vector _), _ => .error .conversionForm
  | .unary op operand, next => do
    let v ← evalThen s enter locals operand .ok
    next (← op.apply s.operationContext v)
  | .binary op left right, next =>
    evalThen s enter locals left fun v => do
      let w ← evalThen s enter locals right .ok
      next (← op.apply v w)
  | .vector elements, next => do next (.vector (← evalElements s enter locals elements))
  | .matrix rows, next => do next (.matrix (← evalRows s enter locals rows))
  | .call name arguments, next =>
    match s.lookup? locals name with
    | none => .error (.unknownFunction name)
    | some (.function f) =>
      if f.parameters.length ≠ arguments.length then
        .error (.argumentCount name f.parameters.length arguments.length)
      else
        match enter with
        | none => .error (.callDepth s.settings.maxDepth)
        | some call => do
          let values ← evalElements s enter locals arguments
          next (← call f (.ofList (f.parameters.zip values)))
    | some v => .error (.notFunction name v.kind)
  | .assign name _, _ => .error (.nestedAssignment name)

/-- The values of a list of terms. -/
def evalElements (s : Scope) (enter : Option Enter) (locals : Bindings) :
    List Term → Except Fault (List Value)
  | [] => .ok []
  | t :: ts => do
    let v ← evalThen s enter locals t .ok
    let vs ← evalElements s enter locals ts
    return v :: vs

/-- The values of rows of terms. -/
def evalRows (s : Scope) (enter : Option Enter) (locals : Bindings) :
    List (List Term) → Except Fault (List (List Value))
  | [] => .ok []
  | row :: rows => do
    let vs ← evalElements s enter locals row
    let vss ← evalRows s enter locals rows
    return vs :: vss

end

/-- The value of a term when so many further calls may nest. -/
def evalWithin (s : Scope) : (calls : Nat) → Bindings → Term → Except Fault Value
  | 0, locals, t => s.evalThen none locals t .ok
  | calls + 1, locals, t =>
    s.evalThen (some fun f parameters => evalWithin s calls parameters f.body) locals t .ok

/-- The value of a term. -/
def eval (s : Scope) (t : Term) : Except Fault Value := s.evalWithin s.settings.maxDepth .empty t

end Scope

end Abacus
