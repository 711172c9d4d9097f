import Abacus.Proofs.Text.Legibility

/-!
# Terms are read back from their texts

The text of a term leaves out parentheses that its grouping does not need. Those that remain are
enough: the text of a term writes it as a phrase of its level (`Term.IsWritable.writes`), so that it
is read back as the same term (`Term.parse_text`).

Some terms have texts that mean another term and are left out by `Term.IsWritable`. A vector of
literals is read as a literal, a vector of lists in braces is read as a matrix, and a unary operator
loses the braces of a vector of one element.
-/

namespace Abacus

namespace Term

/-- A vector or a matrix that is no literal. -/
def isList : Term → Bool
  | vector _ | matrix _ => true
  | _ => false

/-- Terms that are written in a way that says what they are. -/
inductive IsWritable : Term → Prop
  /-- An integer that fits into 64 bits. -/
  | integer {n : Nat} (hn : (n : Int) ≤ Binary64.maxInt) : IsWritable (.literal (.ofInt n))
  /-- A variable that spells no operator. -/
  | var {x : String} (hx : isName x.toList) (hoperator : Operator.find? x = none) :
      IsWritable (.var x)
  /-- A call of a function that spells no operator. -/
  | call {x : String} {arguments : List Term} (hx : isName x.toList)
      (hoperator : Operator.find? x = none) (h : ∀ t ∈ arguments, IsWritable t) :
      IsWritable (.call x arguments)
  /-- A unary operation other than a conversion, but not on a vector of one element. -/
  | unary {op : UnaryOp} {t : Term} (hop : op ≠ .conversion) (hone : ∀ e, t ≠ .vector [e])
      (h : IsWritable t) : IsWritable (.unary op t)
  /-- A binary operation. -/
  | binary (op : BinaryOp) {s t : Term} (hs : IsWritable s) (ht : IsWritable t) :
      IsWritable (.binary op s t)
  /-- A vector with an element that is no literal, and one that is neither a vector nor a matrix. -/
  | vector {elements : List Term} (hliteral : ∃ t ∈ elements, t.literal? = none)
      (hlist : ∃ t ∈ elements, t.isList = false) (h : ∀ t ∈ elements, IsWritable t) :
      IsWritable (.vector elements)
  /-- A matrix with rows of equal length and an element that is no literal. -/
  | matrix {rows : List (List Term)} {columns : Nat} (hrows : rows ≠ [])
      (hcolumns : ∀ row ∈ rows, row.length = columns)
      (hliteral : ∃ row ∈ rows, ∃ t ∈ row, t.literal? = none)
      (h : ∀ row ∈ rows, ∀ t ∈ row, IsWritable t) : IsWritable (.matrix rows)

/-! ### Lists that are no literals -/

theorem ofElements_eq_vector {es : List Term} (h : ∃ t ∈ es, t.literal? = none) :
    ofElements es = .vector es := by
  rw [ofElements, literals?_eq_none_iff.2 h]

theorem ofRows_eq_matrix {rows : List (List Term)}
    (h : ∃ row ∈ rows, ∃ t ∈ row, t.literal? = none) : ofRows rows = .matrix rows := by
  rw [ofRows, literalRows?_eq_none_iff.2 h]

/-! ### Writable terms are legible -/

/-- Writable terms have the form of terms that are read. -/
theorem IsWritable.isParsed {t : Term} (h : t.IsWritable) : t.IsParsed := by
  induction h with
  | integer hn => exact .number (.integer hn)
  | var hx => exact .var hx
  | call hx _ _ ih => exact .call hx ih
  | unary _ _ _ ih => exact .unary _ ih
  | binary op _ _ ihs iht => exact .binary op ihs iht
  | vector hliteral _ _ ih => exact ofElements_eq_vector hliteral ▸ .elements ih
  | matrix hrows hcolumns hliteral _ ih =>
    exact ofRows_eq_matrix hliteral ▸ .rows hrows hcolumns ih

/-- A writable term in braces is a vector or a matrix, as integers are the only literals. -/
theorem IsWritable.isBraced_eq_false {t : Term} (h : t.IsWritable) (hlist : t.isList = false) :
    t.isBraced = false := by
  cases h with
  | vector => cases hlist
  | matrix => cases hlist
  | _ => rfl

/-- Without known names and outside of conversions writable terms are legible. -/
theorem IsWritable.isLegible {t : Term} (h : t.IsWritable) : t.isLegible [] false := by
  have hoperator : ∀ o : Operator, o.isLegible [] false := by
    intro o
    simp [Operator.isLegible]
  induction h with
  | integer => rfl
  | var _ hnone => exact nameIsLegible_iff.2 (.inr (.inl hnone))
  | call _ hnone _ ih =>
    rw [Term.isLegible, Bool.and_eq_true, elementsAreLegible_iff]
    exact ⟨nameIsLegible_iff.2 (.inr (.inl hnone)), ih⟩
  | @unary op t hop hone h ih =>
    by_cases hvector : ∃ e es, t = .vector (e :: es)
    · obtain ⟨e, es, rfl⟩ := hvector
      have hes : es ≠ [] := by
        rintro rfl
        exact hone e rfl
      -- the operator is no conversion, so that no unit can stand in its parentheses
      have hconversion : (op == .conversion) = false := by simpa using hop
      rw [Term.isLegible, Bool.and_eq_true, elementsAreLegible_iff, List.forall_mem_cons] at ih
      obtain ⟨-, hfirst, hrest⟩ := ih
      have hrest : elementsAreLegible [] false es := elementsAreLegible_iff.2 hrest
      simp [Term.isLegible, hoperator, hes, hconversion, hfirst, hrest]
    · rw [isLegible_unary fun e es heq => hvector ⟨e, es, heq⟩, hoperator, ih]
      rfl
  | binary op _ _ ihs iht => simp [Term.isLegible, hoperator, ihs, iht]
  | vector _ hlist h ih =>
    obtain ⟨e, he, hlist⟩ := hlist
    rw [Term.isLegible, Bool.and_eq_true, elementsAreLegible_iff, List.any_eq_true]
    exact ⟨⟨e, he, by rw [(h e he).isBraced_eq_false hlist]; rfl⟩, ih⟩
  | matrix _ _ _ _ ih =>
    rw [Term.isLegible, rowsAreLegible_iff]
    exact ih

/-- **Writable terms are written by their texts.** -/
theorem IsWritable.writes {t : Term} (h : t.IsWritable) :
    Writes [] false t.level t.text.toList t :=
  h.isParsed.writes.1 false h.isLegible

/-- **Parentheses are enough.** A term whose text says what it is, is read back from that text as
the same term, unless it is nested too deep. -/
theorem parse_text {t : Term} (h : t.IsWritable) :
    parse t.text [] = .ok t ∨ parse t.text [] = .error .nesting :=
  h.writes.parse_eq

/-- A difference on the right of a difference, a power of a power, a power of a negation, and a
vector under a unary operator: only the first two need parentheses of their own. -/
theorem parse_text_nested :
    let x : Term := .var "x"
    let n : Nat → Term := fun n => .literal (.ofInt n)
    let t : Term := .binary (.arith .sub) (n 1) (.binary (.arith .sub)
      (.binary (.arith .pow) (.binary (.arith .pow) (n 2) x) (.unary .minus (n 3)))
      (.unary .sum (.vector [x, .call "f" [n 9223372036854775807]])))
    t.IsWritable ∧ t.text = "1-((2^x)^-(3)-sum(x, f(9223372036854775807)))" ∧
      parse t.text [] = .ok t := by
  intro x n t
  have hx : x.IsWritable := .var (by decide +kernel) (by decide +kernel)
  have hn : ∀ k : Nat, (k : Int) ≤ Binary64.maxInt → (n k).IsWritable := fun _ hk => .integer hk
  have hcall : (call "f" [n 9223372036854775807]).IsWritable := by
    refine .call (by decide +kernel) (by decide +kernel) ?_
    simpa using hn _ (by decide)
  have hvector : (vector [x, .call "f" [n 9223372036854775807]]).IsWritable := by
    refine .vector ⟨x, by simp, rfl⟩ ⟨x, by simp, rfl⟩ ?_
    simpa using ⟨hx, hcall⟩
  have hpower := (hn 2 (by decide)).binary (.arith .pow) hx
  have hminus : (unary .minus (n 3)).IsWritable :=
    .unary (by decide) (fun _ => nofun) (hn 3 (by decide))
  have hsum : (unary .sum (vector [x, .call "f" [n 9223372036854775807]])).IsWritable :=
    .unary (by decide) (by simp) hvector
  have hpowers := hpower.binary (.arith .pow) hminus
  have ht : t.IsWritable :=
    (hn 1 (by decide)).binary (.arith .sub) (hpowers.binary (.arith .sub) hsum)
  refine ⟨ht, by decide +kernel, (parse_text ht).resolve_right fun hnesting => ?_⟩
  -- the text is not nested too deep
  have hok : (parse t.text []).toBool = true := by decide +kernel
  rw [hnesting] at hok
  cases hok

end Term

end Abacus
