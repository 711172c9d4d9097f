import Abacus.Term.Tree
import Mathlib.Data.List.Forall2

/-!
# The grammar of expressions

The grammar is stratified into levels. From the loosest to the tightest these are

* levels 1 to 4, the chains of the binary operations of that priority, grouped from the left;
* level 5, the powers, grouped from the right;
* level 6, unary operators in front of an operand;
* level 7, numbers, names, calls, groups, and lists in brackets.

A derivation `Derives p ts t` says that the tokens `ts` are a phrase of level `p` and that the
grammar gives it the term `t`. An expression is a phrase of level 1. Nothing in the grammar speaks
of depths, of cutting, or of the order in which tokens are read.

A list in braces is a matrix if it has elements and each of them is one list in braces. What one
list in braces is depends on how brackets match (`Token.openAfter`), not on how the tokens between
them are read.
-/

namespace Abacus

namespace Token

/-- The brackets that are open behind a list of tokens, the innermost first, given those that are
open in front of it. There is no answer if a bracket closes one of the other kind or none at all. -/
def openAfter : (opened : List Bracket) → List Token → Option (List Bracket)
  | opened, [] => some opened
  | opened, opening b :: ts => openAfter (b :: opened) ts
  | [], closing _ :: _ => none
  | b :: opened, closing c :: ts => if b = c then openAfter opened ts else none
  | opened, _ :: ts => openAfter opened ts

/-- Tokens whose brackets match, each with one of its kind. -/
def Nested (ts : List Token) : Prop := openAfter [] ts = some []

/-- Tokens between brackets of a kind. -/
def inBrackets (b : Bracket) (ts : List Token) : List Token := opening b :: (ts ++ [closing b])

/-- Tokens that are one list in braces: the first brace matches the last. -/
def IsBraceList (ts : List Token) : Prop := ∃ inner, ts = inBrackets .curly inner ∧ Nested inner

/-- Lists of tokens with a comma between each two of them. -/
def separated : List (List Token) → List Token
  | [] => []
  | [item] => item
  | item :: items => item ++ comma :: separated items

@[simp] theorem separated_nil : separated [] = [] := rfl

@[simp] theorem separated_singleton (item : List Token) : separated [item] = item := rfl

@[simp] theorem separated_cons_cons (item next : List Token) (items : List (List Token)) :
    separated (item :: next :: items) = item ++ comma :: separated (next :: items) := rfl

end Token

open Token (inBrackets separated IsBraceList)

/-- **The grammar.** `Derives p ts t` holds if the tokens `ts` are a phrase of level `p` that stands
for the term `t`. -/
inductive Derives : (level : Nat) → List Token → Term → Prop
  /-- A phrase of a tighter level is one of each looser level. -/
  | lift {p : Nat} {ts : List Token} {t : Term} (h : Derives (p + 1) ts t) : Derives p ts t
  /-- A chain goes on with an operation of its priority and one more operand on the right. -/
  | left {p : Nat} {ts us : List Token} {o : Operator} {op : BinaryOp} {s t : Term}
      (hop : o.binary? = some op) (hp : op.priority = p) (hleft : p ≤ 4)
      (hs : Derives p ts s) (ht : Derives (p + 1) us t) :
      Derives p (ts ++ .op o :: us) (.binary op s t)
  /-- A power has one operand on the left and may have powers on the right. -/
  | right {ts us : List Token} {o : Operator} {op : BinaryOp} {s t : Term}
      (hop : o.binary? = some op) (hp : op.priority = 5)
      (hs : Derives 6 ts s) (ht : Derives 5 us t) :
      Derives 5 (ts ++ .op o :: us) (.binary op s t)
  /-- A unary operator in front of an operand, which may start with a unary operator too. -/
  | unary {ts : List Token} {o : Operator} {op : UnaryOp} {t : Term}
      (hop : o.unary? = some op) (ht : Derives 6 ts t) :
      Derives 6 (.op o :: ts) (.unary op t)
  /-- A number. -/
  | number (v : Value) : Derives 7 [.number v] (.literal v)
  /-- A name. -/
  | name (x : String) : Derives 7 [.name x] (.var x)
  /-- A call with any number of arguments. -/
  | call (x : String) {items : List (List Token)} {arguments : List Term}
      (h : List.Forall₂ (Derives 1) items arguments) :
      Derives 7 (.name x :: inBrackets .round (separated items)) (.call x arguments)
  /-- An expression in parentheses. -/
  | group {ts : List Token} {t : Term} (h : Derives 1 ts t) : Derives 7 (inBrackets .round ts) t
  /-- At least two expressions in parentheses are a vector. -/
  | list {items : List (List Token)} {elements : List Term} (hlen : 2 ≤ items.length)
      (h : List.Forall₂ (Derives 1) items elements) :
      Derives 7 (inBrackets .round (separated items)) (.ofElements elements)
  /-- Expressions in braces are a vector, unless all of them are lists in braces. -/
  | vector {items : List (List Token)} {elements : List Term}
      (hitems : items = [] ∨ ∃ item ∈ items, ¬ IsBraceList item)
      (h : List.Forall₂ (Derives 1) items elements) :
      Derives 7 (inBrackets .curly (separated items)) (.ofElements elements)
  /-- Lists in braces of equal length, themselves in braces, are the rows of a matrix. -/
  | matrix {rows : List (List (List Token))} {elements : List (List Term)} {columns : Nat}
      (hrows : rows ≠ []) (hcolumns : ∀ row ∈ elements, row.length = columns)
      (h : List.Forall₂ (List.Forall₂ (Derives 1)) rows elements) :
      Derives 7
        (inBrackets .curly (separated (rows.map fun row => inBrackets .curly (separated row))))
        (.ofRows elements)

namespace Derives

/-- A phrase of a level is a phrase of each level below. -/
theorem mono {p q : Nat} {ts : List Token} {t : Term} (h : Derives q ts t) (hpq : p ≤ q) :
    Derives p ts t := by
  induction hpq with
  | refl => exact h
  | step _ ih => exact ih (.lift h)

/-- Induction on derivations, in which the derivations of the elements of a list come with their
induction hypotheses. -/
theorem induction {motive : ∀ p ts t, Derives p ts t → Prop}
    (lift : ∀ {p ts t} (h : Derives (p + 1) ts t), motive (p + 1) ts t h → motive p ts t (.lift h))
    (left : ∀ {p ts us o op s t} (hop : Operator.binary? o = some op) (hp : op.priority = p)
      (hleft : p ≤ 4) (hs : Derives p ts s) (ht : Derives (p + 1) us t), motive p ts s hs →
      motive (p + 1) us t ht → motive p _ _ (.left hop hp hleft hs ht))
    (right : ∀ {ts us o op s t} (hop : Operator.binary? o = some op) (hp : op.priority = 5)
      (hs : Derives 6 ts s) (ht : Derives 5 us t), motive 6 ts s hs → motive 5 us t ht →
      motive 5 _ _ (.right hop hp hs ht))
    (unary : ∀ {ts o op t} (hop : Operator.unary? o = some op) (ht : Derives 6 ts t),
      motive 6 ts t ht → motive 6 _ _ (.unary hop ht))
    (number : ∀ v, motive 7 _ _ (.number v))
    (name : ∀ x, motive 7 _ _ (.name x))
    (call : ∀ x {items arguments} (h : List.Forall₂ (Derives 1) items arguments),
      List.Forall₂ (fun ts t => ∃ h, motive 1 ts t h) items arguments → motive 7 _ _ (.call x h))
    (group : ∀ {ts t} (h : Derives 1 ts t), motive 1 ts t h → motive 7 _ _ (.group h))
    (list : ∀ {items elements} (hlen : 2 ≤ items.length)
      (h : List.Forall₂ (Derives 1) items elements),
      List.Forall₂ (fun ts t => ∃ h, motive 1 ts t h) items elements →
      motive 7 _ _ (.list hlen h))
    (vector : ∀ {items elements} (hitems : items = [] ∨ ∃ item ∈ items, ¬ IsBraceList item)
      (h : List.Forall₂ (Derives 1) items elements),
      List.Forall₂ (fun ts t => ∃ h, motive 1 ts t h) items elements →
      motive 7 _ _ (.vector hitems h))
    (matrix : ∀ {rows elements columns} (hrows : rows ≠ [])
      (hcolumns : ∀ row ∈ elements, List.length row = columns)
      (h : List.Forall₂ (List.Forall₂ (Derives 1)) rows elements),
      List.Forall₂ (List.Forall₂ fun ts t => ∃ h, motive 1 ts t h) rows elements →
      motive 7 _ _ (.matrix hrows hcolumns h))
    {p : Nat} {ts : List Token} {t : Term} (h : Derives p ts t) : motive p ts t h :=
  -- the recursor asks for motives of its own for lists and for lists of lists
  @Derives.rec motive
    (fun items elements _ => List.Forall₂ (fun ts t => ∃ h, motive 1 ts t h) items elements)
    (fun rows elements _ =>
      List.Forall₂ (List.Forall₂ fun ts t => ∃ h, motive 1 ts t h) rows elements)
    lift left right unary number name call group list vector matrix
    .nil (fun h _ ih ihs => .cons ⟨h, ih⟩ ihs) .nil (fun _ _ ih ihs => .cons ih ihs) p ts t h

end Derives

end Abacus
