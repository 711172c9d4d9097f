import Abacus.Term.Tree
import Abacus.WhiteSpace

/-!
# Reading a text

A text is an expression, an assignment `name := expression`, or a definition
`name(parameters) := expression`. In the body of a definition its parameters and its own name are
known names, so that they never spell an operator there.
-/

namespace Abacus

/-- Whether a text is a name: a letter or underscore followed by letters, digits and underscores. -/
def isName : List Char → Bool
  | [] => false
  | c :: cs => Lexeme.isWordStart c && cs.all Lexeme.isWordChar

/-- The left side of `:=`. -/
structure Head where
  name : String
  /-- The parameters of a definition; an assignment has none, not even an empty list. -/
  parameters : Option (List String)

namespace Head

/-- Cuts a text at its first `:=`. -/
def split? : List Char → Option (List Char × List Char)
  | [] => none
  | ':' :: '=' :: rest => some ([], rest)
  | c :: rest => (split? rest).map fun (head, body) => (c :: head, body)

/-- Cuts a text at each comma. -/
def splitCommas : List Char → List (List Char)
  | [] => [[]]
  | c :: cs =>
    if c = ',' then [] :: splitCommas cs
    else match splitCommas cs with
      | [] => [[c]]
      | part :: parts => (c :: part) :: parts

/-- A name with white space around it. -/
def name? (cs : List Char) : Option String :=
  let name := trimmed cs
  if isName name then some (String.ofList name) else none

/-- Names with commas between them, or white space alone for no names. -/
def names? (cs : List Char) : Option (List String) :=
  if (trimmed cs).isEmpty then some [] else (splitCommas cs).mapM name?

/-- The left side that a text writes. -/
def ofText? (cs : List Char) : Option Head :=
  match cs.dropWhile (· != '(') with
  | [] => (name? cs).map fun name => ⟨name, none⟩
  | _ :: rest =>
    match rest.dropWhile (· != ')') with
    | [] => none
    | _ :: tail =>
      if (trimmed tail).isEmpty then do
        let name ← name? (cs.takeWhile (· != '('))
        let parameters ← names? (rest.takeWhile (· != ')'))
        some ⟨name, some parameters⟩
      else none

end Head

namespace Term

/-- The term of an expression. Known names are never read as operators. -/
def ofExpression (text : List Char) (known : List String) : Except Fault Term := do
  ofTokens (← Token.ofText text known)

/-- The term of a text, in which known names are never read as operators. -/
def parse (text : String) (known : List String) : Except Fault Term :=
  match Head.split? text.toList with
  | none => ofExpression text.toList known
  | some (head, body) =>
    match Head.ofText? head with
    | none => .error (.invalidHead (String.ofList (trimmed head)))
    | some ⟨name, none⟩ => .assign name <$> ofExpression body known
    | some ⟨name, some parameters⟩ => do
      let body ← ofExpression body (name :: parameters ++ known)
      return .assign name (.literal (.function ⟨name, parameters, body⟩))

end Term

end Abacus
