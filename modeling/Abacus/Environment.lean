import Abacus.Bindings
import Abacus.Settings
import Abacus.Term.Statement

/-!
# Environments

An environment holds what outlives one evaluation: the global bindings, the angle unit, and the
compiled terms.

A bound name is read as a name even if it spells an operator, so binding or unbinding such a name
changes how texts are read. Each such change starts a new *epoch*. A compiled term remembers the
epoch in which its text was read, and is up to date as long as that epoch lasts.

Epochs and handles are drawn from two counters, which are natural numbers. A step of a session moves
them by at most one in all (`Session.drawn_run_le`), so counters of 64 bits would not wrap in any
run that can be made.
-/

namespace Abacus

/-- A text that was read once, with the term it was read into. -/
structure Compiled where
  handle : Nat
  text : String
  term : Term
  /-- The epoch in which the text was read, an earlier value of `Environment.epoch` or the present
  one. -/
  epoch : Nat

/-- Bindings, angle unit and compiled terms. -/
structure Environment where
  globals : Bindings
  angleUnit : AngleUnit
  /-- One list with two lookups, by text (`compiledText?`) and by handle (`compiled?`), in place of
  one map from texts to handles and another from handles to compiled terms. No text and no handle
  occurs twice in it (`Environment.Coherent`), so that the two lookups are inverse to each other as
  indexes (`Environment.Coherent.textOf?_eq_some_iff` and
  `Environment.Coherent.handleOf?_eq_some_iff`). -/
  compiled : List Compiled
  /-- The handle of the next compiled term; handles are never used twice. It grows by one with each
  term that is kept, and never wraps. -/
  nextHandle : Nat
  /-- The number of epochs that have ended. It grows by one with each name that spells an operator
  and becomes bound or unbound, and never wraps. -/
  epoch : Nat

namespace Environment

/-- The constants that every environment starts with. -/
def constants : Bindings :=
  .ofList
    [("pi", .double pi), ("e", .double 2.718281828459045), ("tau", .double 6.283185307179586),
      ("true", .boolean true), ("false", .boolean false)]

/-- An environment with the constants alone. -/
def start (angleUnit : AngleUnit) : Environment := ⟨constants, angleUnit, [], 0, 0⟩

/-! ### Bindings -/

/-- The value bound to a name. -/
def get? (env : Environment) (name : String) : Option Value := env.globals.get? name

/-- The name that is bound to the result of the latest evaluation. -/
def answerName : String := "ans"

/-- The result of the latest evaluation. -/
def answer? (env : Environment) : Option Value := env.get? answerName

/-- The bound names, sorted; all of them are known names when a text is read. -/
def names (env : Environment) : List String := env.globals.names

/-- The epoch after a name has become bound or unbound. -/
def epochAfter (env : Environment) (name : String) : Nat :=
  if (Operator.find? name).isSome then env.epoch + 1 else env.epoch

/-- Binds a value to a name. -/
def bind (env : Environment) (name : String) (v : Value) : Environment :=
  { env with
    globals := env.globals.insert name v
    epoch := if (env.get? name).isSome then env.epoch else env.epochAfter name }

/-- Removes the binding of a name. -/
def unbind (env : Environment) (name : String) : Environment :=
  { env with
    globals := env.globals.erase name
    epoch := if (env.get? name).isSome then env.epochAfter name else env.epoch }

/-! ### Compiled terms -/

/-- The compiled term of a text. -/
def compiledText? (env : Environment) (text : String) : Option Compiled :=
  env.compiled.find? fun c => c.text == text

/-- The compiled term with a handle. -/
def compiled? (env : Environment) (handle : Nat) : Option Compiled :=
  env.compiled.find? fun c => c.handle == handle

/-- Whether a compiled term is what its text is read into now. -/
def isCurrent (env : Environment) (c : Compiled) : Bool := c.epoch == env.epoch

/-- Keeps the term of a text under the next handle. -/
def compile (env : Environment) (text : String) (t : Term) : Environment :=
  { env with
    compiled := env.compiled ++ [⟨env.nextHandle, text, t, env.epoch⟩]
    nextHandle := env.nextHandle + 1 }

/-- Replaces the term under a handle by one that was read just now. -/
def recompile (env : Environment) (handle : Nat) (t : Term) : Environment :=
  { env with
    compiled := env.compiled.map fun c =>
      if c.handle = handle then { c with term := t, epoch := env.epoch } else c }

/-- Forgets all compiled terms. -/
def clearCompiled (env : Environment) : Environment := { env with compiled := [] }

end Environment

end Abacus
