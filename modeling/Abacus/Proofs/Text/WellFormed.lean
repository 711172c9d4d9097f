import Abacus.Proofs.Fraction.Exactness
import Abacus.Proofs.Text.Statements

/-!
# What is read is well formed

Types leave room for terms that no text is read into: assignments inside of expressions, functions
as operands, matrices with rows of different lengths, vectors of literals that are no literals.
`Term.IsWellFormed` excludes them, and all that is read satisfies it (`Term.isWellFormed_of_parse`).

The form of what is read is known from `Term.IsParsed`, where a list is built by `Term.ofElements`
or `Term.ofRows`. What these functions make of a list is a literal if all its entries are literals,
and otherwise some entry is none.
-/

namespace Abacus

open Binary64 (maxInt)

/-! ### Well-formed terms -/

/-- Literals as they are written: numbers, of which the exact ones are natural numbers, and vectors
and matrices of literals. Booleans have no literals, and functions are not among them. -/
inductive Value.IsWellFormed : Value → Prop
  | double (x : Float) : IsWellFormed (.double x)
  | percent (magnitude : Float) : IsWellFormed (.percent magnitude)
  | rational {q : Fraction} (hdenominator : q.denominator = 1)
      (hnumerator : 0 ≤ q.numerator ∧ q.numerator ≤ maxInt) : IsWellFormed (.rational q)
  | vector {vs : List Value} (h : ∀ v ∈ vs, IsWellFormed v) : IsWellFormed (.vector vs)
  | matrix {rows : List (List Value)} {columns : Nat} (hrows : rows ≠ [])
      (hcolumns : ∀ row ∈ rows, row.length = columns)
      (h : ∀ row ∈ rows, ∀ v ∈ row, IsWellFormed v) : IsWellFormed (.matrix rows)

namespace Term

/-- Expressions without assignments, in which an operation belongs to an operator and a list is a
literal if it can be one. -/
inductive IsExpression : Term → Prop
  | literal {v : Value} (hv : v.IsWellFormed) : IsExpression (.literal v)
  | var {x : String} (hx : isName x.toList) : IsExpression (.var x)
  | call {x : String} {arguments : List Term} (hx : isName x.toList)
      (h : ∀ t ∈ arguments, IsExpression t) : IsExpression (.call x arguments)
  | unary {o : Operator} {op : UnaryOp} {t : Term} (ho : o.unary? = some op)
      (h : IsExpression t) : IsExpression (.unary op t)
  | binary {o : Operator} {op : BinaryOp} {s t : Term} (ho : o.binary? = some op)
      (hs : IsExpression s) (ht : IsExpression t) : IsExpression (.binary op s t)
  | vector {es : List Term} (hliteral : ∃ e ∈ es, e.literal? = none)
      (h : ∀ e ∈ es, IsExpression e) : IsExpression (.vector es)
  | matrix {rows : List (List Term)} {columns : Nat} (hrows : rows ≠ [])
      (hcolumns : ∀ row ∈ rows, row.length = columns)
      (hliteral : ∃ row ∈ rows, ∃ e ∈ row, e.literal? = none)
      (h : ∀ row ∈ rows, ∀ e ∈ row, IsExpression e) : IsExpression (.matrix rows)

/-- Expressions, assignments of expressions, and definitions under the name of their function. -/
inductive IsWellFormed : Term → Prop
  | expression {t : Term} (h : t.IsExpression) : IsWellFormed t
  | assignment {x : String} {value : Term} (hx : isName x.toList) (h : value.IsExpression) :
      IsWellFormed (.assign x value)
  | definition {f : String} {parameters : List String} {body : Term} (hf : isName f.toList)
      (hparameters : ∀ x ∈ parameters, isName x.toList) (h : body.IsExpression) :
      IsWellFormed (.assign f (.literal (.function ⟨f, parameters, body⟩)))

end Term

/-! ### Lists of literals -/

theorem Value.IsNumeral.isWellFormed {v : Value} (h : v.IsNumeral) : v.IsWellFormed := by
  cases h with
  | @integer n hn =>
    have hmin : Binary64.minInt ≤ n := Int.le_trans (by decide) (Int.natCast_nonneg n)
    have hnumerator : (Fraction.ofInt n).numerator = n := Fraction.numerator_ofInt hmin hn
    refine .rational rfl ?_
    rw [hnumerator]
    exact ⟨Int.natCast_nonneg n, hn⟩
  | double _ => exact .double _
  | percent _ => exact .percent _

namespace Term

theorem IsExpression.isWellFormed_literal {v : Value} (h : IsExpression (.literal v)) :
    v.IsWellFormed := by
  cases h with
  | literal hv => exact hv

/-- A vector is a literal, or one of its elements is none. -/
theorem isExpression_ofElements {es : List Term} (h : ∀ e ∈ es, e.IsExpression) :
    (ofElements es).IsExpression := by
  rw [ofElements]
  split
  · next vs hvs =>
    obtain rfl := eq_map_of_literals? hvs
    refine .literal (.vector fun v hv => ?_)
    exact (h _ (List.mem_map_of_mem hv)).isWellFormed_literal
  · next hnone => exact .vector (literals?_eq_none_iff.1 hnone) h

/-- A matrix is a literal, or one of its entries is none. -/
theorem isExpression_ofRows {rows : List (List Term)} {columns : Nat} (hrows : rows ≠ [])
    (hcolumns : ∀ row ∈ rows, row.length = columns)
    (h : ∀ row ∈ rows, ∀ e ∈ row, e.IsExpression) : (ofRows rows).IsExpression := by
  rw [ofRows]
  split
  · next vss hvss =>
    obtain rfl := eq_map_of_literalRows? hvss
    have hne : vss ≠ [] := by
      rintro rfl
      exact hrows rfl
    have hlength : ∀ vs ∈ vss, vs.length = columns := by
      intro vs hvs
      rw [← hcolumns _ (List.mem_map_of_mem hvs), List.length_map]
    refine .literal (.matrix hne hlength fun vs hvs v hv => ?_)
    exact (h _ (List.mem_map_of_mem hvs) _ (List.mem_map_of_mem hv)).isWellFormed_literal
  · next hnone => exact .matrix hrows hcolumns (literalRows?_eq_none_iff.1 hnone) h

/-! ### What is read -/

theorem IsParsed.isExpression {t : Term} (h : t.IsParsed) : t.IsExpression := by
  induction h with
  | number hv => exact .literal hv.isWellFormed
  | var hx => exact .var hx
  | call hx _ ih => exact .call hx ih
  | unary op _ ih => exact .unary op.unary?_operator ih
  | binary op _ _ ihs iht => exact .binary op.binary?_operator ihs iht
  | elements _ ih => exact isExpression_ofElements ih
  | rows hrows hcolumns _ ih => exact isExpression_ofRows hrows hcolumns ih

/-- **What is read is well formed**, for every text and all known names. -/
theorem isWellFormed_of_parse {text : String} {known : List String} {t : Term}
    (h : parse text known = .ok t) : t.IsWellFormed := by
  cases isStatement_of_parse h with
  | expression ht => exact .expression ht.isExpression
  | assignment hx hvalue => exact .assignment hx hvalue.isExpression
  | definition hf hparameters hbody => exact .definition hf hparameters hbody.isExpression

/-- A definition with a vector, a literal of a matrix, and a parameter that spells an operator. -/
theorem isWellFormed_of_parse_definition :
    let matrix : Value := .matrix [[.ofInt 1, .ofInt 2], [.ofInt 3, .ofInt 4]]
    let body : Term := .binary (.arith .mul) (.vector [.var "sum", .literal (.ofInt 1)])
      (.literal matrix)
    let t : Term := .assign "f" (.literal (.function ⟨"f", ["sum"], body⟩))
    parse "f(sum) := (sum, 1)*{{1, 2}, {3, 4}}" [] = .ok t ∧
      t.IsWellFormed := by
  intro matrix body t
  have hread : parse "f(sum) := (sum, 1)*{{1, 2}, {3, 4}}" [] = .ok t := by
    with_unfolding_all rfl
  exact ⟨hread, isWellFormed_of_parse hread⟩

end Term

end Abacus
