import Abacus.Environment
import Abacus.Evaluation

/-!
# Sessions

A session reads and evaluates texts one after the other in an environment of its own. What it does
is listed in `Command`, and `Session.run` is one step: it answers with a reply or a fault and goes
on in a new state. A step that fails leaves the bindings as they were, with one exception: where a
result is asked for as a number, it is bound even if it turns out not to be one.
-/

namespace Abacus

/-- What a session works with. -/
structure Session where
  environment : Environment
  settings : Settings
  converter : Option Converter

/-- What a step of a session answers, and the state that it leaves behind. -/
abbrev Outcome (α : Type) := Except Fault α × Session

/-- A conversion table: what is in the first unit is multiplied by the factor and increased by the
offset to be in the second. -/
def Converter.ofTable (table : List (String × String × Float × Float)) : Converter :=
  fun x source target =>
    match table.find? fun entry => entry.1 == source && entry.2.1 == target with
    | some (_, _, factor, offset) => .ok (x * factor + offset)
    | none => .error (.inconvertible source target)

/-- A value as a number, which structures and functions are not, although they may count as one. -/
def Value.asNumber (v : Value) : Except Fault Float :=
  match v with
  | .vector _ | .matrix _ | .function _ => .error (.notNumber v.kind v.text)
  | _ => v.toNumber

namespace Session

/-- A session with the constants alone. -/
def start (settings : Settings) : Session := ⟨.start settings.angleUnit, settings, none⟩

/-- What the evaluation of a term depends on. -/
def scope (s : Session) : Scope :=
  ⟨s.environment.globals, s.environment.angleUnit, s.settings, s.converter⟩

/-- Reads a text with all bound names known. -/
def parse (s : Session) (text : String) : Except Fault Term := Term.parse text s.environment.names

/-- The session with a value bound to a name. -/
def bind (s : Session) (name : String) (v : Value) : Session :=
  { s with environment := s.environment.bind name v }

/-! ### Evaluating -/

/-- The value of a whole text and the name that it is assigned to. A function that is assigned is
taken as it is. -/
def valueOf (s : Session) : Term → Except Fault (Option String × Value)
  | .assign name (.literal (.function f)) => .ok (some name, .function f)
  | .assign name t => do return (some name, ← s.scope.eval t)
  | t => do return (none, ← s.scope.eval t)

/-- The session after an evaluation: the value is bound to the name that it is assigned to, and as
the latest answer. -/
def finish (s : Session) (name : Option String) (v : Value) : Session :=
  match name with
  | some name => (s.bind name v).bind Environment.answerName v
  | none => s.bind Environment.answerName v

/-- Evaluates a term. -/
def evaluateTerm (s : Session) (t : Term) : Outcome Value :=
  match s.valueOf t with
  | .ok (name, v) => (.ok v, s.finish name v)
  | .error fault => (.error fault, s)

/-- Reads and evaluates a text. -/
def evaluate (s : Session) (text : String) : Outcome Value :=
  match s.parse text with
  | .ok t => s.evaluateTerm t
  | .error fault => (.error fault, s)

/-- The result of an evaluation as a number. -/
def asNumber (outcome : Outcome Value) : Outcome Float :=
  (outcome.1.bind Value.asNumber, outcome.2)

/-! ### Compiled terms -/

/-- The term under a handle, read again if its epoch is over. -/
def refresh (s : Session) (handle : Nat) : Outcome Term :=
  match s.environment.compiled? handle with
  | none => (.error (.deadHandle handle), s)
  | some c =>
    if s.environment.isCurrent c then (.ok c.term, s)
    else
      match s.parse c.text with
      | .ok t => (.ok t, { s with environment := s.environment.recompile handle t })
      | .error fault => (.error fault, s)

/-- Reads a text once and keeps its term. A text that is kept already keeps its handle, and is read
again if its epoch is over. -/
def compile (s : Session) (text : String) : Outcome Nat :=
  match s.environment.compiledText? text with
  | some c =>
    match s.refresh c.handle with
    | (.ok _, s) => (.ok c.handle, s)
    | (.error fault, s) => (.error fault, s)
  | none =>
    match s.parse text with
    | .ok t =>
      (.ok s.environment.nextHandle, { s with environment := s.environment.compile text t })
    | .error fault => (.error fault, s)

/-- Evaluates the term under a handle. -/
def evaluateCompiled (s : Session) (handle : Nat) : Outcome Value :=
  match s.refresh handle with
  | (.ok t, s) => s.evaluateTerm t
  | (.error fault, s) => (.error fault, s)

/-! ### Binding -/

/-- Binds the value of a text, which leaves the latest answer as it is. -/
def bindText (s : Session) (name text : String) : Outcome Unit :=
  match (do s.scope.eval (← s.parse text)) with
  | .ok v => (.ok (), s.bind name v)
  | .error fault => (.error fault, s)

/-- Defines a function whose body is a text. The parameters and the name of the function are known
names in the body. -/
def define (s : Session) (name : String) (parameters : List String) (body : String) :
    Outcome Unit :=
  match Term.parse body (name :: parameters ++ s.environment.names) with
  | .ok t => (.ok (), s.bind name (.function ⟨name, parameters, t⟩))
  | .error fault => (.error fault, s)

end Session

/-! ### Commands -/

/-- One step of a session. -/
inductive Command
  | evaluate (text : String)
  | evaluateTerm (term : Term)
  | evaluateCompiled (handle : Nat)
  | evaluateToNumber (text : String)
  | evaluateCompiledToNumber (handle : Nat)
  | bind (name : String) (value : Value)
  | bindText (name text : String)
  | unbind (name : String)
  | get (name : String)
  | define (name : String) (parameters : List String) (body : String)
  | compile (text : String)
  | clearCompiled
  | setAngleUnit (unit : AngleUnit)
  | setConverter (converter : Converter)

/-- The answer to a step that succeeds. -/
inductive Reply
  | value (v : Value)
  | number (x : Float)
  | binding (v : Option Value)
  | handle (index : Nat)
  | done

namespace Session

/-- An outcome whose result becomes a reply. -/
def reply {α : Type} (f : α → Reply) (outcome : Outcome α) : Outcome Reply :=
  (outcome.1.map f, outcome.2)

/-- Takes one step. -/
def run (s : Session) : Command → Outcome Reply
  | .evaluate text => reply .value (s.evaluate text)
  | .evaluateTerm t => reply .value (s.evaluateTerm t)
  | .evaluateCompiled handle => reply .value (s.evaluateCompiled handle)
  | .evaluateToNumber text => reply .number (asNumber (s.evaluate text))
  | .evaluateCompiledToNumber handle => reply .number (asNumber (s.evaluateCompiled handle))
  | .bind name v => (.ok .done, s.bind name v)
  | .bindText name text => reply (fun _ => .done) (s.bindText name text)
  | .unbind name =>
    (.ok (.binding (s.environment.get? name)),
      { s with environment := s.environment.unbind name })
  | .get name => (.ok (.binding (s.environment.get? name)), s)
  | .define name parameters body => reply (fun _ => .done) (s.define name parameters body)
  | .compile text => reply .handle (s.compile text)
  | .clearCompiled => (.ok .done, { s with environment := s.environment.clearCompiled })
  | .setAngleUnit unit =>
    (.ok .done, { s with environment := { s.environment with angleUnit := unit } })
  | .setConverter converter => (.ok .done, { s with converter := some converter })

/-- Takes steps one after the other and lists what they answer. -/
def runAll (s : Session) : List Command → List (Except Fault Reply) × Session
  | [] => ([], s)
  | command :: commands =>
    let (answer, s) := s.run command
    let (answers, s) := s.runAll commands
    (answer :: answers, s)

end Session

/-- The value of a text as a number, in a session of its own. -/
def evaluateNumber (text : String) : Except Fault Float :=
  (Session.asNumber ((Session.start {}).evaluate text)).1

end Abacus
