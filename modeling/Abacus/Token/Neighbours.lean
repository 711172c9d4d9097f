import Abacus.Token.Basic

/-!
# Which tokens may stand side by side

Before a term is built its tokens are checked: there are some, no two neighbours are misplaced,
brackets match, and no operator stands at the end. Each rule about neighbours is a predicate on two
tokens, and a pair that breaks several rules is reported under the first of them.
-/

namespace Abacus

/-- The rules about neighbours in the order in which they are checked. -/
def Misplacement.all : List Misplacement :=
  [.operands, .afterGroup, .groupAfterOperand, .unaryAfterOperand, .binaryAfterOperator,
    .binaryAtStart, .operatorAtEnd, .emptyElement]

/-- Whether two neighbours are misplaced in this way. -/
def Misplacement.occurs (left right : Token) : Misplacement → Bool
  | .operands => left.isOperand && right.isOperand
  | .afterGroup => left.isClosing && (right.isOperand || right.isOpening)
  | .groupAfterOperand =>
    match left, right with
    | .number _, .opening _ => true
    | .name _, .opening .curly => true
    | _, _ => false
  | .unaryAfterOperand => left.endsOperand && right.operator?.any fun o => o.binary?.isNone
  | .binaryAfterOperator =>
    left.operator?.isSome && right.operator?.any fun o => o.unary?.isNone
  | .binaryAtStart => left.startsElement && right.operator?.any fun o => o.unary?.isNone
  | .operatorAtEnd =>
    left.operator?.isSome && (right.isClosing || right.isComma || right.isDefine)
  | .emptyElement =>
    left.startsElement && right.isComma || left.isComma && right.isClosing

namespace Token

/-- How two neighbours are misplaced, if they are. -/
def misplacement? (left right : Token) : Option Misplacement :=
  Misplacement.all.find? fun m => m.occurs left right

/-- Checks all neighbours. -/
def checkNeighbours : List Token → Except Fault Unit
  | left :: right :: rest =>
    match misplacement? left right with
    | some m => .error (.misplaced m)
    | none => checkNeighbours (right :: rest)
  | _ => .ok ()

/-- Checks that each closing bracket closes the innermost open one, which is of its kind, and that
none stays open. -/
def checkBrackets : (position : Nat) → (opened : List Bracket) → List Token → Except Fault Unit
  | _, [], [] => .ok ()
  | _, _ :: _, [] => .error .bracketMismatch
  | i, opened, opening b :: rest => checkBrackets (i + 1) (b :: opened) rest
  | i, [], closing _ :: _ => .error (.surplusClosing i)
  | i, b :: opened, closing c :: rest =>
    if b = c then checkBrackets (i + 1) opened rest else .error .bracketMismatch
  | i, opened, _ :: rest => checkBrackets (i + 1) opened rest

/-- Checks that no operator stands at the end. -/
def checkEnd (ts : List Token) : Except Fault Unit :=
  match ts.getLast? with
  | some (op _) => .error .operatorAtEndOfText
  | _ => .ok ()

/-- Checks the tokens of an expression. -/
def check (ts : List Token) : Except Fault Unit := do
  if ts.isEmpty then throw .emptyText
  checkNeighbours ts
  checkBrackets 0 [] ts
  checkEnd ts

/-- The checked tokens of a text. -/
def ofText (text : List Char) (known : List String) : Except Fault (List Token) := do
  if text.any fun c => 128 ≤ c.toNat then throw .nonAscii
  let ts := ofLexemes known (← Lexeme.scan text)
  check ts
  return ts

end Token

end Abacus
