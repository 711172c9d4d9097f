import Abacus.Proofs.Positions.Chains
import Abacus.Proofs.Positions.Groups
import Abacus.Proofs.Positions.Tokens
import Abacus.Term.Statement

/-!
# The reader by positions

An operand is read by the first of its tokens, the index of the last, and slices between. A chain is
read by the positions of its operations. The text of a definition is cut at the offset at which its
first `:=` stands. All of this is put together here to a reader that accesses texts, tokens, splits
and rows by positions alone, and that breaks off where an access misses.

It does not: `parse_eq_some` says that it answers for every text and all known names, and what it
answers is what `Term.parse` says. Each part of the reader is shown to be equal to that of the
reader that cuts by patterns, for any reader that is called for what is inside. So nothing is
assumed of the tokens of an expression either, whose brackets need not match.
-/

namespace Abacus.Positional

open Activation (answer)
open Term (ofElements ofRows isRectangular shown)

/-! ### Operands -/

section

variable (read : Nat → List Token → Careful Term) (depth : Nat)

/-- The term of a list in braces. -/
def braceLiteral (tokens : List Token) : Careful Term := do
  let items ← innerItems tokens
  if ← isMatrix items then
    let rows ← items.mapM fun item => innerItems item >>= (·.mapM (read (depth + 2)))
    let first ← reach rows[0]?
    if rows.any (·.length != first.length) then throw .raggedMatrix
    return ofRows rows
  else ofElements <$> items.mapM (read (depth + 1))

/-- The term of an operand. -/
def operand (tokens : List Token) : Careful Term := do
  let last ← reach (lessOne? tokens.length)
  let t ← reach tokens[0]?
  match t with
  | .op o =>
    if o.unary?.isNone then throwNamed .missingLeftOperand o
    else do
      let rest ← reach (slice? tokens 1 tokens.length)
      node o [← read (depth + 1) rest]
  | .number v => if last = 0 then return .literal v else throw (.unexpectedToken (shown t))
  | .name name =>
    if last = 0 then return .var name
    else do
      match ← reach tokens[1]? with
      | .opening .round =>
        match ← groupItems? tokens 1 last with
        | some items => .call name <$> items.mapM (read (depth + 1))
        | none => throw (.unexpectedToken (shown t))
      | _ => throw (.unexpectedToken (shown t))
  | .opening .round =>
    match ← groupItems? tokens 0 last with
    | some items =>
      match items.length with
      | 0 => throw .emptyParentheses
      | 1 => do read (depth + 1) (← reach items[0]?)
      | _ => ofElements <$> items.mapM (read (depth + 1))
    | none => throw (.unexpectedToken (shown t))
  | .opening .curly =>
    if closing? tokens 0 = some last then braceLiteral read depth tokens
    else throw (.unexpectedToken (shown t))
  | _ => throw (.unexpectedToken (shown t))

/-- The term of tokens whose operations are at some positions. -/
def chain (tokens : List Token) (splits : List Split) : Careful Term :=
  match splits.head? with
  | none => operand read depth tokens
  | some (index, o) => do
    if (← binary o).isRightAssoc then
      let deeper := depth + splits.length
      if maxNesting < deeper then throw .nesting
      else do
        let right ← lastOperand read deeper tokens splits
        rightLoop read deeper tokens splits splits.length right
    else do
      let left ← read depth (← reach (slice? tokens 0 index))
      leftLoop read depth tokens splits 0 splits left

/-- One activation of the reader. -/
def expression (tokens : List Token) : Careful Term :=
  if maxNesting < depth then throw .nesting
  else if tokens.isEmpty then throw .emptyExpression
  else do chain read depth tokens (← findSplits tokens)

end

/-- The reader with a bound on how many activations are nested. That there are more is a misstep. -/
def within : (calls : Nat) → Nat → List Token → Careful Term
  | 0, _, _ => misstep
  | calls + 1, depth, tokens => expression (within calls) depth tokens

/-! ### Texts -/

/-- The offset at which a text has `:=` for the first time. -/
def defineOffset? : List Char → Option Nat
  | [] => none
  | c :: cs =>
    if [':', '='].isPrefixOf (c :: cs) then some 0 else (c.utf8Size + ·) <$> defineOffset? cs

/-- The term of the text of an expression. -/
def ofExpression (text : List Char) (known : List String) : Careful Term := do
  within (5 * (maxNesting + 1) + 1) 0 (← tokens text known)

/-- The term of a text. -/
def parse (text : String) (known : List String) : Careful Term :=
  match defineOffset? text.toList with
  | none => ofExpression text.toList known
  | some offset => do
    let head ← reach (textTo? text.toList offset)
    let body ← reach (textFrom? text.toList (offset + 2))
    match Head.ofText? head with
    | none => throw (.invalidHead (String.ofList (trimmed head)))
    | some ⟨name, none⟩ => .assign name <$> ofExpression body known
    | some ⟨name, some parameters⟩ => do
      let body ← ofExpression body (name :: parameters ++ known)
      return .assign name (.literal (.function ⟨name, parameters, body⟩))

/-! ### The same operands -/

section

variable {read : Nat → List Token → Careful Term} {depth : Nat}

/-- Rows are as long as the first one if no row has another length. -/
theorem isRectangular_cons (row : List Term) (rows : List (List Term)) :
    isRectangular (row :: rows) = !(row :: rows).any (·.length != row.length) := by
  rw [isRectangular, List.any_cons, bne_self_eq_false, Bool.false_or, List.not_any_eq_all_not]
  simp only [bne, Bool.not_not]

/-- Rows that are read have a first one, since a matrix has a first item. -/
theorem braceLiteral_eq {rest inner : List Token} (hg : Token.group? rest = some inner) :
    braceLiteral read depth (.opening .curly :: rest) =
      Activation.operand read depth (.opening .curly :: rest) := by
  simp only [braceLiteral, innerItems_eq hg, pure_bind, isMatrix_eq, Activation.operand, hg]
  cases hrows : Token.matrixRows? (Token.elements inner) with
  | none => rfl
  | some rows =>
    have hread := mapM_innerItems hrows fun row => row.mapM (read (depth + 2))
    obtain ⟨hne, hall⟩ := Token.matrixRows?_eq_some_iff.1 hrows
    simp only [Option.isSome_some, if_true, hread]
    generalize Token.elements inner = items at hne hall
    cases hall with
    | nil => exact absurd rfl hne
    | @cons _ row _ rows =>
      simp only [List.mapM_cons, bind_assoc, pure_bind]
      refine congrArg _ (funext fun first => congrArg _ (funext fun others => ?_))
      rw [List.getElem?_cons_zero, reach_some, pure_bind, isRectangular_cons]
      cases (first :: others).any (·.length != first.length) <;> rfl

/-- **No position is missed in an operand.** -/
theorem operand_eq {tokens : List Token} (hne : tokens ≠ []) :
    operand read depth tokens = Activation.operand read depth tokens := by
  obtain ⟨t, rest, rfl⟩ := List.exists_cons_of_ne_nil hne
  have hlast : lessOne? (t :: rest).length = some rest.length := rfl
  rw [operand, hlast, reach_some, pure_bind, List.getElem?_cons_zero, reach_some, pure_bind]
  cases t with
  | op o =>
    have hslice : slice? (Token.op o :: rest) 1 (Token.op o :: rest).length = some rest :=
      slice?_length [.op o] rest
    dsimp only
    rw [Activation.operand]
    cases ho : o.unary? with
    | none => exact throwNamed_eq .missingLeftOperand o
    | some op =>
      rw [hslice]
      show (read (depth + 1) rest >>= fun t => node o [t]) = _
      simp only [node_unary ho]
      rfl
  | number v => cases rest <;> rfl
  | name name =>
    cases rest with
    | nil => rfl
    | cons u rest =>
      cases u with
      | opening b =>
        cases b with
        | round =>
          have hitems : groupItems? (Token.name name :: .opening .round :: rest) 1
              (Token.opening .round :: rest).length =
                pure ((Token.group? rest).map Token.elements) :=
            groupItems?_eq [.name name] .round rest
          have hmore : (Token.opening .round :: rest).length ≠ 0 := Nat.succ_ne_zero _
          dsimp only
          rw [Activation.operand, if_neg hmore, List.getElem?_cons_succ, List.getElem?_cons_zero,
            reach_some, pure_bind]
          dsimp only
          rw [hitems, pure_bind]
          cases Token.group? rest <;> rfl
        | curly => rfl
      | _ => rfl
  | opening b =>
    cases b with
    | round =>
      have hitems : groupItems? (Token.opening .round :: rest) 0 rest.length =
          pure ((Token.group? rest).map Token.elements) := groupItems?_eq [] .round rest
      dsimp only
      rw [Activation.operand, hitems, pure_bind]
      cases Token.group? rest with
      | none => rfl
      | some inner =>
        dsimp only [Option.map_some]
        rcases Token.elements inner with - | ⟨item, - | ⟨next, items⟩⟩ <;> rfl
    | curly =>
      have hclosing : closing? (Token.opening .curly :: rest) 0 = some rest.length ↔
          ∃ inner, Token.group? rest = some inner := closing?_eq_some_iff [] .curly rest
      cases hg : Token.group? rest with
      | none =>
        rw [Activation.operand, hg]
        exact if_neg (by simp [hclosing, hg])
      | some inner =>
        rw [← braceLiteral_eq hg]
        exact if_pos (hclosing.2 ⟨inner, hg⟩)
  | _ => rfl

/-- Without a token there is no last one. -/
example : operand read depth [] = misstep := rfl

/-- **No position is missed in a chain.** The operands between its splits are put together again. -/
theorem chain_eq {tokens first : List Token} {links : List (BinaryOp × List Token)}
    (htokens : tokens = first ++ Chain.linkTokens links) (hne : tokens ≠ []) :
    chain read depth tokens (splitsOf 0 ⟨first, links⟩) =
      match links with
      | [] => Activation.operand read depth tokens
      | link :: links =>
        if link.1.isRightAssoc then
          if maxNesting < depth + (links.length + 1) then throw .nesting
          else Activation.rightChain read (depth + (links.length + 1)) first (link :: links)
        else
          read depth first >>= (Activation.leftChain read depth · (link :: links)) := by
  rw [splitsOf, Nat.zero_add]
  cases links with
  | nil => exact operand_eq hne
  | cons link links =>
    have hsplits : linkSplits first.length (link :: links) ≠ [] := List.cons_ne_nil _ _
    have hhead : (linkSplits first.length (link :: links)).head? =
        some (first.length, link.1.operator) := rfl
    rw [chain, hhead]
    dsimp only
    rw [binary_operator, pure_bind, length_linkSplits, List.length_cons]
    by_cases hright : link.1.isRightAssoc
    · rw [if_pos hright, if_pos hright]
      by_cases hd : maxNesting < depth + (links.length + 1)
      · rw [if_pos hd, if_pos hd]
      · have hloop := @rightLoop_eq read (depth + (links.length + 1)) _ _ hsplits [] first []
          (link :: links) htokens (by simp) rfl
        rw [length_linkSplits, List.length_cons] at hloop
        rw [if_neg hd, if_neg hd, hloop]
        exact bind_pure _
    · have hslice : slice? tokens 0 first.length = some first := by
        rw [htokens]
        exact slice?_zero first _
      rw [if_neg hright, if_neg hright, hslice, reach_some, pure_bind]
      refine congrArg _ (funext fun left => ?_)
      exact leftLoop_eq first [] (link :: links) left htokens rfl

/-- **No position is missed in an activation.** -/
theorem expression_eq (tokens : List Token) :
    expression read depth tokens = Activation.expression read depth tokens := by
  rw [expression, Activation.expression, findSplits_eq]
  by_cases hd : maxNesting < depth
  · rw [if_pos hd, if_pos hd]
  · rw [if_neg hd, if_neg hd]
    by_cases hempty : tokens.isEmpty
    · rw [if_pos hempty, if_pos hempty]
    · rw [if_neg hempty, if_neg hempty]
      have hne : tokens ≠ [] := fun h => hempty (List.isEmpty_iff.2 h)
      cases hc : Chain.ofTokens tokens with
      | error fault => rfl
      | ok c =>
        obtain ⟨first, links⟩ := c
        refine (chain_eq (eq_append_of_ofTokens hc) hne).trans ?_
        cases links <;> rfl

end

theorem within_eq (calls depth : Nat) (tokens : List Token) :
    within calls depth tokens = Activation.within calls depth tokens := by
  induction calls generalizing depth tokens with
  | zero => rfl
  | succ calls ih =>
    have hread : within calls = Activation.within calls := funext fun d => funext fun us => ih d us
    rw [within, Activation.within, expression_eq, hread]

theorem ofExpression_eq (text : List Char) (known : List String) :
    ofExpression text known = answer (Term.ofExpression text known) := by
  rw [ofExpression, Term.ofExpression, tokens_eq, Activation.answer_bind]
  refine congrArg _ (funext fun ts => ?_)
  rw [within_eq]
  exact Activation.within_eq_ofTokens.2 ts

/-- The text is cut at the offset of its first `:=`. -/
theorem defineOffset?_eq (text : List Char) :
    defineOffset? text = (Head.split? text).map fun parts => utf8Length parts.1 := by
  induction text using Head.split?.induct with
  | case1 => rfl
  | case2 rest => rfl
  | case3 c rest hdefine ih =>
    have hprefix : ¬ [':', '='].isPrefixOf (c :: rest) := by
      intro hpre
      obtain ⟨tail, htail⟩ := List.isPrefixOf_iff_prefix.1 hpre
      cases htail
      exact hdefine tail rfl rfl
    rw [defineOffset?, if_neg hprefix, Head.split?, ih]
    · cases Head.split? rest with
      | none => rfl
      | some parts => exact congrArg some (utf8Length_cons c parts.1).symm
    · exact hdefine

theorem eq_append_of_split? {text head body : List Char}
    (h : Head.split? text = some (head, body)) : text = head ++ ([':', '='] ++ body) := by
  induction text using Head.split?.induct generalizing head with
  | case1 => cases h
  | case2 rest =>
    cases h
    rfl
  | case3 c rest hdefine ih =>
    rw [Head.split?] at h
    · obtain ⟨⟨front, back⟩, hsplit, heq⟩ := Option.map_eq_some_iff.1 h
      cases heq
      exact congrArg (c :: ·) (ih hsplit)
    · exact hdefine

/-- **No position is missed in a text.** The reader by positions breaks off at an index or a slice
that is not there, at an offset inside a character, where one less than nothing is asked for, where
an operator does not take its operands, and where a number that was matched is none. Whatever the
text and the known names are, it never does, and it says what the reader says that cuts by patterns.
-/
theorem parse_eq_some (text : String) (known : List String) :
    parse text known = ExceptT.mk (some (Term.parse text known)) := by
  show parse text known = answer (Term.parse text known)
  rw [parse, Term.parse, defineOffset?_eq]
  cases hsplit : Head.split? text.toList with
  | none => exact ofExpression_eq text.toList known
  | some parts =>
    obtain ⟨head, body⟩ := parts
    have htext := eq_append_of_split? hsplit
    have hhead : textTo? text.toList (utf8Length head) = some head := by
      rw [htext]
      exact textTo?_append head _
    have hbody : textFrom? text.toList (utf8Length head + 2) = some body := by
      have hfrom := textFrom?_append (head ++ [':', '=']) body
      rw [utf8Length_append, List.append_assoc] at hfrom
      rw [htext]
      exact hfrom
    rw [Option.map_some]
    dsimp only
    rw [hhead, reach_some, pure_bind, hbody, reach_some, pure_bind]
    cases Head.ofText? head with
    | none => rfl
    | some parsed =>
      obtain ⟨name, parameters⟩ := parsed
      cases parameters with
      | none =>
        dsimp only
        rw [ofExpression_eq, Activation.answer_map]
      | some parameters =>
        dsimp only
        rw [ofExpression_eq, Activation.answer_bind]
        rfl

end Abacus.Positional
