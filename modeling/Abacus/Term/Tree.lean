import Abacus.Term.Basic
import Abacus.Term.Chain

/-!
# Terms from tokens

Tokens are cut into the chain of operations that bind least tightly, and each operand of the chain
is read in the same way. What contains no operation between operands is an operand: a number, a
name, a call, a group, a list in braces, or a unary operator in front of an operand.

Groups, elements of lists, operands of unary operators, and each link of a chain that groups from
the right add to the depth, which is limited. Chains that group from the left do not, however long.
-/

namespace Abacus.Term

open Token (weight weight_cons weightRows)

/-- Whether all rows have as many elements as the first. -/
def isRectangular (rows : List (List Term)) : Bool :=
  match rows with
  | [] => true
  | row :: rest => rest.all fun r => r.length == row.length

/-- What is shown of a token that starts no operand. No text leads to one where an operand is read
(`Term.isOfText_of_parse`). -/
def shown : Token → String
  | .number v => v.text
  | .name name => name
  | .op o => o.canonical
  | .comma => ","
  | .define => ":="
  | .opening .round => "("
  | .opening .curly => "\x7b"
  | .closing .round => ")"
  | .closing .curly => "\x7d"

mutual

/-- The term of an expression at a depth of nesting. -/
def ofTokensAt (depth : Nat) (ts : List Token) : Except Fault Term :=
  if maxNesting < depth then .error .nesting
  else if ts.isEmpty then .error .emptyExpression
  else
    match h : Chain.ofTokens ts with
    | .error fault => .error fault
    | .ok ⟨_, []⟩ => ofOperand depth ts
    | .ok ⟨first, link :: links⟩ =>
      have := Chain.weight_ofTokens h
      if link.1.isRightAssoc then
        let deeper := depth + (links.length + 1)
        if maxNesting < deeper then .error .nesting
        else ofRightChain deeper first (link :: links)
      else do
        let left ← ofTokensAt depth first
        ofLeftChain depth left (link :: links)
termination_by 4 * ts.length + 1
decreasing_by
  · omega
  all_goals
    simp only [List.map_cons, weight_cons, List.length_cons] at *
    omega

/-- The term of a chain that groups from the left, continued from the term on its left. -/
def ofLeftChain (depth : Nat) (left : Term) : List (BinaryOp × List Token) → Except Fault Term
  | [] => .ok left
  | (op, operand) :: links => do
    let right ← ofTokensAt depth operand
    ofLeftChain depth (.binary op left right) links
termination_by links => weight (links.map Prod.snd)
decreasing_by
  all_goals
    simp only [List.map_cons, weight_cons]
    omega

/-- The term of a chain that groups from the right; its last operand is read first. -/
def ofRightChain (depth : Nat) (first : List Token) :
    List (BinaryOp × List Token) → Except Fault Term
  | [] => ofTokensAt depth first
  | (op, operand) :: links => do
    let right ← ofRightChain depth operand links
    let left ← ofTokensAt depth first
    return .binary op left right
termination_by links => 4 * first.length + 2 + weight (links.map Prod.snd)
decreasing_by
  · simp only [List.map_nil, Token.weight_nil]
    omega
  all_goals
    simp only [List.map_cons, weight_cons]
    omega

/-- The term of an operand. -/
def ofOperand (depth : Nat) (ts : List Token) : Except Fault Term :=
  match ts with
  | [] => .error .emptyExpression
  | .op o :: rest =>
    match o.unary? with
    | none => .error (.missingLeftOperand o)
    | some op => .unary op <$> ofTokensAt (depth + 1) rest
  | [.number v] => .ok (.literal v)
  | [.name name] => .ok (.var name)
  | .name name :: .opening .round :: rest =>
    match h : Token.group? rest with
    | some inner =>
      have := Token.weight_elements_of_group? h
      .call name <$> ofItems (depth + 1) (Token.elements inner)
    | none => .error (.unexpectedToken name)
  | .opening .round :: rest =>
    match h : Token.group? rest with
    | some inner =>
      have hw := Token.weight_elements_of_group? h
      match he : Token.elements inner with
      | [] => .error .emptyParentheses
      | [item] =>
        have : weight [item] + 2 ≤ 4 * rest.length := he ▸ hw
        ofTokensAt (depth + 1) item
      | items =>
        have : weight items + 2 ≤ 4 * rest.length := he ▸ hw
        ofElements <$> ofItems (depth + 1) items
    | none => .error (.unexpectedToken (shown (.opening .round)))
  | .opening .curly :: rest =>
    match h : Token.group? rest with
    | some inner =>
      have := Token.weight_elements_of_group? h
      match hr : Token.matrixRows? (Token.elements inner) with
      | some rows =>
        have := Token.weightRows_matrixRows? hr
        do
          let rows ← ofRowItems (depth + 2) rows
          if isRectangular rows then return ofRows rows else throw .raggedMatrix
      | none => ofElements <$> ofItems (depth + 1) (Token.elements inner)
    | none => .error (.unexpectedToken (shown (.opening .curly)))
  | t :: _ => .error (.unexpectedToken (shown t))
termination_by 4 * ts.length
decreasing_by
  all_goals
    simp only [List.length_cons, weight_cons] at *
    omega

/-- The terms of the elements of a list. -/
def ofItems (depth : Nat) : List (List Token) → Except Fault (List Term)
  | [] => .ok []
  | item :: items => do
    let t ← ofTokensAt depth item
    let ts ← ofItems depth items
    return t :: ts
termination_by items => weight items
decreasing_by
  all_goals
    simp only [weight_cons]
    omega

/-- The terms of the rows of a matrix. -/
def ofRowItems (depth : Nat) : List (List (List Token)) → Except Fault (List (List Term))
  | [] => .ok []
  | row :: rows => do
    let r ← ofItems depth row
    let rs ← ofRowItems depth rows
    return r :: rs
termination_by rows => weightRows rows
decreasing_by
  all_goals
    simp only [Token.weightRows_cons]
    omega

end

/-- The term of the tokens of an expression. -/
def ofTokens (ts : List Token) : Except Fault Term := ofTokensAt 0 ts

end Abacus.Term
