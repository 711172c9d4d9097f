import Abacus.Proofs.Text.Writing

/-!
# Terms that say what they are

The terms that texts are read into have a form of their own (`Term.IsParsed`): numbers are not
negative, names are names, and lists of literals are literals. Most of them say what they are: their
own text means them and no other term (`Term.IsParsed.writes`).

The text of a term can mislead in four ways, and `Term.isLegible` excludes just these.

* A vector whose elements are all written in braces looks like a matrix.
* A vector of one element loses its braces under a unary operator, which is then applied to the
  element.
* An operator that is written as a word looks like a name if the word is known, and where the name
  of a unit can stand.
* The name of a unit that spells an operator is read as the operator inside of parentheses that the
  text adds.

The text of an infinity or of NaN is a name.

That legible terms are written by their texts is shown by induction on the form of a term. What the
induction carries says more of a vector than that it is written: its elements are written as well,
because the operator in front of a vector puts its own parentheses around them and drops the braces.
An element that is legible in one place need not be so in another, and the claim about it is for all
places.
-/

namespace Abacus

/-! ### What texts are read into -/

/-- The values of numerals. -/
inductive Value.IsNumeral : Value → Prop
  /-- An integer that fits into 64 bits. -/
  | integer {n : Nat} (hn : (n : Int) ≤ Binary64.maxInt) : IsNumeral (.ofInt n)
  | double {x : Float} (hx : Binary64.isNegative x = false) : IsNumeral (.double x)
  | percent {x : Float} (hx : Binary64.isNegative x = false) : IsNumeral (.percent x)

namespace Term

/-- Terms of the form that expressions are read into. -/
inductive IsParsed : Term → Prop
  | number {v : Value} (hv : v.IsNumeral) : IsParsed (.literal v)
  | var {x : String} (hx : isName x.toList) : IsParsed (.var x)
  | call {x : String} {arguments : List Term} (hx : isName x.toList)
      (h : ∀ t ∈ arguments, IsParsed t) : IsParsed (.call x arguments)
  | unary (op : UnaryOp) {t : Term} (h : IsParsed t) : IsParsed (.unary op t)
  | binary (op : BinaryOp) {s t : Term} (hs : IsParsed s) (ht : IsParsed t) :
      IsParsed (.binary op s t)
  /-- A vector, which is a literal if its elements are. -/
  | elements {es : List Term} (h : ∀ t ∈ es, IsParsed t) : IsParsed (.ofElements es)
  /-- A matrix, which is a literal if its entries are. -/
  | rows {rows : List (List Term)} {columns : Nat} (hrows : rows ≠ [])
      (hcolumns : ∀ row ∈ rows, row.length = columns) (h : ∀ row ∈ rows, ∀ t ∈ row, IsParsed t) :
      IsParsed (.ofRows rows)

end Term

/-! ### Texts that mislead -/

/-- Whether a value is written in braces. -/
def Value.isBraced : Value → Bool
  | .vector _ | .matrix _ => true
  | _ => false

/-- Whether a term is written in braces. -/
def Term.isBraced : Term → Bool
  | .vector _ | .matrix _ => true
  | .literal v => v.isBraced
  | _ => false

namespace Value

mutual

/-- Whether the text of a literal says what it is. -/
def isLegible : Value → Bool
  | double x | percent x => (Binary64.parts? x).isSome
  | vector vs => (vs.isEmpty || vs.any fun v => !v.isBraced) && elementsAreLegible vs
  | matrix rows => rowsAreLegible rows
  | rational _ | boolean _ | function _ => true

/-- Whether the texts of literals say what they are. -/
def elementsAreLegible : List Value → Bool
  | [] => true
  | v :: vs => v.isLegible && elementsAreLegible vs

/-- Whether the texts of rows of literals say what they are. -/
def rowsAreLegible : List (List Value) → Bool
  | [] => true
  | row :: rows => elementsAreLegible row && rowsAreLegible rows

end

end Value

namespace Term

mutual

/-- Whether the text of an expression says what it is, where a unit can stand or not. The operands
of a conversion lose their braces, and all but the first of them stand where a unit can. -/
def isLegible (known : List String) : (unit : Bool) → Term → Bool
  | _, literal v => v.isLegible
  | unit, var x => nameIsLegible known unit x
  | unit, call x arguments => nameIsLegible known unit x && elementsAreLegible known false arguments
  | unit, unary op (vector (e :: es)) =>
    op.operator.isLegible known unit && !es.isEmpty && e.isLegible known false &&
      elementsAreLegible known (op == .conversion) es
  | unit, unary op t => op.operator.isLegible known unit && t.isLegible known false
  | unit, binary op s t =>
    op.operator.isLegible known unit && s.isLegible known (unit && !op.wrapsLeft s) &&
      t.isLegible known (unit && !op.wrapsRight t)
  | _, vector es => (es.any fun e => !e.isBraced) && elementsAreLegible known false es
  | _, matrix rows => rowsAreLegible known rows
  | _, assign _ _ => false

/-- Whether the texts of terms in a list say what they are. -/
def elementsAreLegible (known : List String) (unit : Bool) : List Term → Bool
  | [] => true
  | t :: ts => t.isLegible known unit && elementsAreLegible known unit ts

/-- Whether the texts of terms in rows say what they are. -/
def rowsAreLegible (known : List String) : List (List Term) → Bool
  | [] => true
  | row :: rows => elementsAreLegible known false row && rowsAreLegible known rows

end

/-- The level of the phrases that stand for a term. -/
def level : Term → Nat
  | .binary op _ _ => op.priority
  | .unary _ _ => 6
  | _ => 7

/-! ### Lists and literals -/

theorem eq_literal_of_literal? {t : Term} {v : Value} (h : t.literal? = some v) :
    t = .literal v := by
  cases t with
  | literal w =>
    cases h
    rfl
  | _ => cases h

theorem eq_map_of_literals? {es : List Term} {vs : List Value} (h : literals? es = some vs) :
    es = vs.map literal := by
  induction es generalizing vs with
  | nil =>
    cases h
    rfl
  | cons e es ih =>
    rw [literals?] at h
    split at h
    · next v vs hv hvs =>
      cases h
      rw [eq_literal_of_literal? hv, ih hvs]
      rfl
    · cases h

theorem eq_map_of_literalRows? {rows : List (List Term)} {vss : List (List Value)}
    (h : literalRows? rows = some vss) : rows = vss.map (List.map literal) := by
  induction rows generalizing vss with
  | nil =>
    cases h
    rfl
  | cons row rows ih =>
    rw [literalRows?] at h
    split at h
    · next vs vss hvs hvss =>
      cases h
      rw [eq_map_of_literals? hvs, ih hvss]
      rfl
    · cases h

theorem literals?_eq_none_iff {es : List Term} :
    literals? es = none ↔ ∃ e ∈ es, e.literal? = none := by
  induction es with
  | nil => simp [literals?]
  | cons e es ih =>
    rw [List.exists_mem_cons_iff, ← ih, literals?]
    cases e.literal? <;> cases literals? es <;> simp

theorem literalRows?_eq_none_iff {rows : List (List Term)} :
    literalRows? rows = none ↔ ∃ row ∈ rows, ∃ e ∈ row, e.literal? = none := by
  induction rows with
  | nil => simp [literalRows?]
  | cons row rows ih =>
    rw [List.exists_mem_cons_iff, ← ih, ← literals?_eq_none_iff, literalRows?]
    cases literals? row <;> cases literalRows? rows <;> simp

/-- A list of terms is a literal if all of them are, and a vector otherwise. -/
theorem ofElements_cases (es : List Term) :
    (∃ vs, es = vs.map literal ∧ ofElements es = .literal (.vector vs)) ∨
      es ≠ [] ∧ ofElements es = .vector es := by
  rw [ofElements]
  split
  · next vs h => exact .inl ⟨vs, eq_map_of_literals? h, rfl⟩
  · next h =>
    refine .inr ⟨?_, rfl⟩
    rintro rfl
    cases h

/-- Rows of terms are a literal if all of the terms are, and a matrix otherwise. -/
theorem ofRows_cases (rows : List (List Term)) :
    (∃ vss, rows = vss.map (List.map literal) ∧ ofRows rows = .literal (.matrix vss)) ∨
      ofRows rows = .matrix rows := by
  rw [ofRows]
  split
  · next vss h => exact .inl ⟨vss, eq_map_of_literalRows? h, rfl⟩
  · exact .inr rfl

theorem eq_of_ofElements_eq_vector {es es' : List Term} (h : ofElements es = .vector es') :
    es = es' := by
  rcases ofElements_cases es with ⟨vs, -, heq⟩ | ⟨-, heq⟩
  · rw [heq] at h
    cases h
  · rw [heq] at h
    exact Term.vector.inj h

theorem IsParsed.ofElements_eq {es : List Term} (h : IsParsed (.vector es)) :
    ofElements es = .vector es := by
  generalize ht : vector es = t at h
  cases h with
  | @elements es' _ =>
    rw [eq_of_ofElements_eq_vector ht.symm]
  | @rows rows _ _ _ =>
    rcases ofRows_cases rows with ⟨vss, -, heq⟩ | heq <;> rw [heq] at ht <;> cases ht
  | _ => cases ht

@[simp] theorem isBraced_ofElements (es : List Term) : (ofElements es).isBraced = true := by
  rcases ofElements_cases es with ⟨vs, -, heq⟩ | ⟨-, heq⟩ <;> rw [heq] <;> rfl

@[simp] theorem isBraced_ofRows (rows : List (List Term)) : (ofRows rows).isBraced = true := by
  rcases ofRows_cases rows with ⟨vss, -, heq⟩ | heq <;> rw [heq] <;> rfl

/-- What is not written in braces is read from no list in braces. -/
theorem not_isBraceList {t : Term} (h : t.isBraced = false) {ts : List Token}
    (hd : Derives 1 ts t) : ¬ Token.IsBraceList ts := by
  intro hts
  rcases hd.exists_of_isBraceList hts with ⟨es, rfl⟩ | ⟨rows, rfl⟩
  · rw [isBraced_ofElements] at h
    cases h
  · rw [isBraced_ofRows] at h
    cases h

/-! ### Legible lists -/

end Term

theorem Value.elementsAreLegible_iff {vs : List Value} :
    elementsAreLegible vs ↔ ∀ v ∈ vs, v.isLegible := by
  induction vs with
  | nil => simp [elementsAreLegible]
  | cons v vs ih => rw [elementsAreLegible, Bool.and_eq_true, ih, List.forall_mem_cons]

theorem Value.rowsAreLegible_iff {rows : List (List Value)} :
    rowsAreLegible rows ↔ ∀ row ∈ rows, ∀ v ∈ row, v.isLegible := by
  induction rows with
  | nil => simp [rowsAreLegible]
  | cons row rows ih =>
    rw [rowsAreLegible, Bool.and_eq_true, elementsAreLegible_iff, ih, List.forall_mem_cons]

namespace Term

variable {known : List String} {unit : Bool}

theorem elementsAreLegible_iff {es : List Term} :
    elementsAreLegible known unit es ↔ ∀ e ∈ es, e.isLegible known unit := by
  induction es with
  | nil => simp [elementsAreLegible]
  | cons e es ih => rw [elementsAreLegible, Bool.and_eq_true, ih, List.forall_mem_cons]

theorem rowsAreLegible_iff {rows : List (List Term)} :
    rowsAreLegible known rows ↔ ∀ row ∈ rows, ∀ e ∈ row, e.isLegible known false := by
  induction rows with
  | nil => simp [rowsAreLegible]
  | cons row rows ih =>
    rw [rowsAreLegible, Bool.and_eq_true, elementsAreLegible_iff, ih, List.forall_mem_cons]

theorem isLegible_unary {op : UnaryOp} {t : Term} (h : ∀ e es, t ≠ .vector (e :: es)) :
    (unary op t).isLegible known unit =
      (op.operator.isLegible known unit && t.isLegible known false) := by
  cases t with
  | vector es =>
    cases es with
    | nil => rfl
    | cons e es => exact absurd rfl (h e es)
  | _ => rfl

/-- A legible vector has an element without braces, if it has any, and legible elements. -/
theorem isLegible_ofElements {es : List Term} (h : (ofElements es).isLegible known unit) :
    (es = [] ∨ ∃ e ∈ es, e.isBraced = false) ∧ ∀ e ∈ es, e.isLegible known false := by
  rcases ofElements_cases es with ⟨vs, rfl, heq⟩ | ⟨-, heq⟩
  · rw [heq] at h
    simp only [isLegible, Value.isLegible, Bool.and_eq_true, Bool.or_eq_true, List.isEmpty_iff,
      List.any_eq_true, Bool.not_eq_true', Value.elementsAreLegible_iff] at h
    simpa [isBraced, isLegible] using h
  · rw [heq] at h
    simp only [isLegible, Bool.and_eq_true, List.any_eq_true, Bool.not_eq_true',
      elementsAreLegible_iff] at h
    exact ⟨.inr h.1, h.2⟩

/-- A legible matrix has legible entries. -/
theorem isLegible_ofRows {rows : List (List Term)} (h : (ofRows rows).isLegible known unit) :
    ∀ row ∈ rows, ∀ e ∈ row, e.isLegible known false := by
  rcases ofRows_cases rows with ⟨vss, rfl, heq⟩ | heq
  · rw [heq, isLegible, Value.isLegible, Value.rowsAreLegible_iff] at h
    simpa [isLegible] using h
  · rw [heq, isLegible, rowsAreLegible_iff] at h
    exact h

/-! ### Texts as lists of characters -/

theorem toList_commaSeparated (texts : List String) :
    (commaSeparated texts).toList = [',', ' '].intercalate (texts.map String.toList) := by
  rw [commaSeparated, String.toList_intercalate]
  rfl

theorem toList_braced (texts : List String) :
    (braced texts).toList =
      '\x7b' :: ([',', ' '].intercalate (texts.map String.toList) ++ ['\x7d']) := by
  simp [braced, toList_commaSeparated]

theorem toList_parenthesized (text : String) :
    (parenthesized text).toList = '(' :: (text.toList ++ [')']) := by
  simp [parenthesized]

theorem texts_eq_map (es : List Term) : texts es = es.map text := by
  induction es with
  | nil => rfl
  | cons e es ih => rw [texts, ih, List.map_cons]

theorem rowTexts_eq_map (rows : List (List Term)) :
    rowTexts rows = rows.map fun row => braced (row.map text) := by
  induction rows with
  | nil => rfl
  | cons row rows ih => rw [rowTexts, ih, texts_eq_map, List.map_cons]

theorem valueTexts_eq_map (vs : List Value) : Value.texts vs = vs.map Value.text := by
  induction vs with
  | nil => rfl
  | cons v vs ih => rw [Value.texts, ih, List.map_cons]

theorem valueRowTexts_eq_map (rows : List (List Value)) :
    Value.rowTexts rows = rows.map fun row => braced (row.map Value.text) := by
  induction rows with
  | nil => rfl
  | cons row rows ih => rw [Value.rowTexts, ih, valueTexts_eq_map, List.map_cons]

/-- A vector is written in braces, whether it is a literal or not. -/
theorem text_ofElements (es : List Term) : (ofElements es).text = braced (es.map text) := by
  rcases ofElements_cases es with ⟨vs, rfl, heq⟩ | ⟨-, heq⟩
  · rw [heq, text, Value.text, valueTexts_eq_map, List.map_map]
    rfl
  · rw [heq, text, texts_eq_map]

/-- A matrix is written in braces, whether it is a literal or not. -/
theorem text_ofRows (rows : List (List Term)) :
    (ofRows rows).text = braced (rows.map fun row => braced (row.map text)) := by
  rcases ofRows_cases rows with ⟨vss, rfl, heq⟩ | heq
  · rw [heq, text, Value.text, valueRowTexts_eq_map, List.map_map]
    refine congrArg braced (List.map_congr_left fun row _ => ?_)
    rw [Function.comp_apply, List.map_map]
    rfl
  · rw [heq, text, rowTexts_eq_map]

theorem toList_text_integer {n : Nat} (hn : (n : Int) ≤ Binary64.maxInt) :
    (text (.literal (.ofInt n))).toList = Decimal.digitChars n := by
  -- the integer fits, so it is not held at the end of the range
  have hclamp : Binary64.clamp n = n := by
    simp only [Binary64.clamp, Binary64.minInt]
    omega
  have htext : (Fraction.ofInt n).text = Decimal.integer n := by
    simp [Fraction.text, Fraction.ofInt, hclamp]
  rw [text, Value.ofInt, Value.text, htext]
  simp [Decimal.integer, Decimal.intChars]

theorem text_unary {op : UnaryOp} {t : Term} (h : ∀ es, t ≠ .vector es) :
    (unary op t).text = op.operator.canonical ++ parenthesized t.text := by
  cases t with
  | vector es => exact absurd rfl (h es)
  | _ => rfl

/-! ### Operands -/

/-- Parentheses are put around what is looser than the left side of an operation asks. -/
theorem wrapsLeft_eq (op : BinaryOp) (t : Term) :
    op.wrapsLeft t = t.binaryOp?.any fun inner => inner.priority < op.leftLevel := by
  refine congrArg (fun f => t.binaryOp?.any f) (funext fun inner => ?_)
  rw [Bool.eq_iff_iff]
  by_cases hright : op.isRightAssoc
  · simp [BinaryOp.leftLevel, hright]
    omega
  · simp [BinaryOp.leftLevel, hright]

/-- Parentheses are put around what is looser than the right side of an operation asks. -/
theorem wrapsRight_eq (op : BinaryOp) (t : Term) :
    op.wrapsRight t = t.binaryOp?.any fun inner => inner.priority < op.rightLevel := by
  refine congrArg (fun f => t.binaryOp?.any f) (funext fun inner => ?_)
  rw [Bool.eq_iff_iff]
  by_cases hright : op.isRightAssoc
  · simp [BinaryOp.rightLevel, hright]
  · simp [BinaryOp.rightLevel, hright]
    omega

theorem one_le_level (t : Term) : 1 ≤ t.level := by
  cases t with
  | binary op s u => exact op.one_le_priority
  | _ => simp [level]

@[simp] theorem level_ofElements (es : List Term) : (ofElements es).level = 7 := by
  rcases ofElements_cases es with ⟨vs, -, heq⟩ | ⟨-, heq⟩ <;> rw [heq] <;> rfl

@[simp] theorem level_ofRows (rows : List (List Term)) : (ofRows rows).level = 7 := by
  rcases ofRows_cases rows with ⟨vss, -, heq⟩ | heq <;> rw [heq] <;> rfl

/-- An operand without parentheses is a phrase of the level that is asked of it. -/
theorem le_level {q : Nat} (hq : q ≤ 6) {t : Term}
    (h : (t.binaryOp?.any fun inner => inner.priority < q) = false) : q ≤ t.level := by
  cases t with
  | binary inner s u => simpa [binaryOp?, level] using h
  | _ =>
    simp only [level]
    omega

/-- Literals that are read need no parentheses. -/
theorem IsParsed.alwaysWrapped {t : Term} (h : t.IsParsed) : t.alwaysWrapped = false := by
  cases h with
  | number hv =>
    cases hv with
    | @integer n hn =>
      have hnumerator : 0 ≤ (Fraction.ofInt n).numerator := by
        simp only [Fraction.ofInt, Binary64.clamp, Binary64.minInt, Binary64.maxInt]
        omega
      have hinteger : (Fraction.ofInt n).isInteger = true := rfl
      simpa [Term.alwaysWrapped, Value.ofInt, Value.needsParentheses, hinteger] using hnumerator
    | double hx => exact hx
    | percent hx => exact hx
  | @elements es _ => rcases ofElements_cases es with ⟨vs, -, heq⟩ | ⟨-, heq⟩ <;> rw [heq] <;> rfl
  | @rows rows _ _ _ => rcases ofRows_cases rows with ⟨vss, -, heq⟩ | heq <;> rw [heq] <;> rfl
  | _ => rfl

/-- An operand is written at the level that is asked of it, in parentheses if it needs them. -/
theorem writes_operandText {known : List String} {unit : Bool} {t : Term} {q : Nat} {wraps : Bool}
    (h : Writes known (unit && !wraps) t.level t.text.toList t) (hq : q ≤ 7)
    (hliteral : t.alwaysWrapped = false) (hwraps : wraps = false → q ≤ t.level) :
    Writes known unit q (t.operandText t.text wraps).toList t := by
  rw [operandText, hliteral, Bool.or_false]
  cases wraps with
  | true =>
    -- in parentheses every term is a phrase of each level, and no unit can stand there
    rw [if_pos rfl, toList_parenthesized]
    rw [Bool.not_true, Bool.and_false] at h
    exact (h.mono t.one_le_level).parenthesized.mono hq
  | false =>
    rw [Bool.not_false, Bool.and_true] at h
    exact h.mono (hwraps rfl)

/-! ### Lists in braces -/

section Braces

variable {α : Type} {f : α → String} {g : α → Term}

theorem forall₂_writes_map {as : List α} (h : ∀ a ∈ as, Writes known unit 1 (f a).toList (g a)) :
    List.Forall₂ (Writes known unit 1) ((as.map f).map String.toList) (as.map g) := by
  rwa [List.map_map, List.forall₂_map_left_iff, List.forall₂_map_right_iff, List.forall₂_same]

/-- Texts in braces write a vector of the terms that they write by themselves. One that is not in
braces keeps the braces around them from being those of a matrix. -/
theorem writes_braced {as : List α} (hbraced : as = [] ∨ ∃ a ∈ as, (g a).isBraced = false)
    (h : ∀ a ∈ as, Writes known false 1 (f a).toList (g a)) :
    Writes known unit 7 (braced (as.map f)).toList (ofElements (as.map g)) := by
  have has : as.map g = [] ∨ ∃ e ∈ as.map g, ∀ ts, Derives 1 ts e → ¬ Token.IsBraceList ts := by
    rcases hbraced with rfl | ⟨a, ha, hbraced⟩
    · exact .inl rfl
    · exact .inr ⟨g a, List.mem_map_of_mem ha, fun _ => not_isBraceList hbraced⟩
  rw [toList_braced]
  exact .vector has (forall₂_writes_map h)

/-- Rows of texts in braces write a matrix of the terms that they write by themselves. -/
theorem writes_bracedRows {rows : List (List α)} {columns : Nat} (hrows : rows ≠ [])
    (hcolumns : ∀ row ∈ rows, row.length = columns)
    (h : ∀ row ∈ rows, ∀ a ∈ row, Writes known false 1 (f a).toList (g a)) :
    Writes known unit 7 (braced (rows.map fun row => braced (row.map f))).toList
      (ofRows (rows.map (List.map g))) := by
  have htexts : List.Forall₂ (List.Forall₂ (Writes known false 1))
      (rows.map fun row => (row.map f).map String.toList) (rows.map (List.map g)) := by
    rw [List.forall₂_map_left_iff, List.forall₂_map_right_iff, List.forall₂_same]
    exact fun row hrow => forall₂_writes_map (h row hrow)
  have hrowTexts : (rows.map fun row => braced (row.map f)).map String.toList =
      (rows.map fun row => (row.map f).map String.toList).map fun row =>
        '\x7b' :: ([',', ' '].intercalate row ++ ['\x7d']) := by
    simp [toList_braced, Function.comp_def]
  have hlengths : ∀ row ∈ rows.map (List.map g), row.length = columns := by
    simpa using hcolumns
  rw [toList_braced, hrowTexts]
  exact .matrix (by simpa using hrows) hlengths htexts

end Braces

/-! ### Texts write terms -/

/-- Wherever the text of a term says what it is, it writes the term. -/
def WritesItself (known : List String) (t : Term) : Prop :=
  ∀ unit, t.isLegible known unit → Writes known unit t.level t.text.toList t

/-- The texts of terms that are written as expressions. -/
theorem forall₂_writes {es : List Term} (h : ∀ t ∈ es, t.WritesItself known)
    (hl : ∀ t ∈ es, t.isLegible known unit) :
    List.Forall₂ (Writes known unit 1) ((es.map text).map String.toList) es := by
  have hes := forall₂_writes_map (f := text) (g := id) fun t ht =>
    (h t ht unit (hl t ht)).mono t.one_le_level
  rwa [List.map_id] at hes

/-- Numbers are written by their texts. -/
theorem writes_literal {v : Value} (hv : v.IsNumeral) (h : v.isLegible) :
    Writes known unit 7 (text (.literal v)).toList (.literal v) := by
  cases hv with
  | integer hn =>
    rw [toList_text_integer hn]
    exact .integer hn
  | double hx =>
    obtain ⟨parts, hparts⟩ := Option.isSome_iff_exists.1 h
    rw [text, Value.text, Decimal.literal, String.toList_ofList]
    exact .double hparts hx
  | percent hx =>
    obtain ⟨parts, hparts⟩ := Option.isSome_iff_exists.1 h
    rw [text, Value.text, String.toList_append, Decimal.plain, String.toList_ofList]
    exact .percentage hparts hx

/-- A unary operation on a vector is written with the elements of the vector in the parentheses of
the operator. -/
theorem writesItself_unary_vector {op : UnaryOp} {e : Term} {es : List Term}
    (hvector : ofElements (e :: es) = .vector (e :: es))
    (h : ∀ t ∈ e :: es, t.WritesItself known) :
    (unary op (.vector (e :: es))).WritesItself known := by
  intro unit hl
  rw [isLegible, Bool.and_eq_true, Bool.and_eq_true, Bool.and_eq_true, Bool.not_eq_true',
    List.isEmpty_eq_false_iff, elementsAreLegible_iff] at hl
  obtain ⟨⟨⟨hop, hes⟩, hfirst⟩, hrest⟩ := hl
  obtain ⟨he, h⟩ := List.forall_mem_cons.1 h
  have hlist := Writes.unary_list hop hes ((he false hfirst).mono e.one_le_level)
    (forall₂_writes h hrest)
  rw [hvector] at hlist
  rw [text, texts_eq_map, String.toList_append, toList_parenthesized, toList_commaSeparated]
  exact hlist

/-- Other unary operations are written with parentheses around the whole operand. -/
theorem writesItself_unary {op : UnaryOp} {t : Term} (ht : ∀ e es, t ≠ .vector (e :: es))
    (h : t.WritesItself known) : (unary op t).WritesItself known := by
  intro unit hl
  rw [isLegible_unary ht, Bool.and_eq_true] at hl
  have hnone : ∀ es, t ≠ .vector es := by
    rintro (_ | ⟨e, es⟩) rfl
    · cases hl.2
    · exact ht e es rfl
  rw [text_unary hnone, String.toList_append, toList_parenthesized]
  exact .unary_group hl.1 ((h false hl.2).mono t.one_le_level)

/-- The sides of an operation are written at the levels that the grammar asks of them, and in
parentheses if they are looser. -/
theorem writesItself_binary {op : BinaryOp} {s t : Term} (hs : s.alwaysWrapped = false)
    (ht : t.alwaysWrapped = false) (hleft : s.WritesItself known) (hright : t.WritesItself known) :
    (binary op s t).WritesItself known := by
  intro unit hl
  rw [isLegible, Bool.and_eq_true, Bool.and_eq_true] at hl
  obtain ⟨⟨hop, hlegs⟩, hlegt⟩ := hl
  have hlevels : op.leftLevel ≤ 6 ∧ op.rightLevel ≤ 6 := by
    have := op.levels
    omega
  have hleft := writes_operandText (hleft _ hlegs) (Nat.le_succ_of_le hlevels.1) hs
    fun hwraps => le_level hlevels.1 (wrapsLeft_eq op s ▸ hwraps)
  have hright := writes_operandText (hright _ hlegt) (Nat.le_succ_of_le hlevels.2) ht
    fun hwraps => le_level hlevels.2 (wrapsRight_eq op t ▸ hwraps)
  rw [text, String.toList_append, String.toList_append]
  exact .binary hop hleft hright

/-- A vector is written by its elements in braces. -/
theorem writesItself_ofElements {es : List Term} (h : ∀ t ∈ es, t.WritesItself known) :
    (ofElements es).WritesItself known := by
  intro unit hl
  obtain ⟨hbraced, helements⟩ := isLegible_ofElements hl
  have hes : Writes known unit 7 (braced (es.map text)).toList (ofElements (es.map id)) :=
    writes_braced hbraced fun e he => (h e he false (helements e he)).mono e.one_le_level
  rw [List.map_id] at hes
  rwa [text_ofElements, level_ofElements]

/-- A matrix is written by its rows in braces. -/
theorem writesItself_ofRows {rows : List (List Term)} {columns : Nat} (hrows : rows ≠ [])
    (hcolumns : ∀ row ∈ rows, row.length = columns)
    (h : ∀ row ∈ rows, ∀ t ∈ row, t.WritesItself known) : (ofRows rows).WritesItself known := by
  intro unit hl
  have hentries := isLegible_ofRows hl
  have hmatrix : Writes known unit 7 (braced (rows.map fun row => braced (row.map text))).toList
      (ofRows (rows.map (List.map id))) :=
    writes_bracedRows hrows hcolumns fun row hrow t ht =>
      (h row hrow t ht false (hentries row hrow t ht)).mono t.one_le_level
  rw [List.map_id_fun, List.map_id] at hmatrix
  rwa [text_ofRows, level_ofRows]

/-- **Legible terms are written by their texts.** The elements of a vector are as well, as the
vector may lose its braces under a unary operator. -/
theorem IsParsed.writes {t : Term} (h : t.IsParsed) :
    t.WritesItself known ∧ ∀ es, t = .vector es → ∀ e ∈ es, e.WritesItself known := by
  induction h with
  | number hv => exact ⟨fun unit hl => writes_literal hv hl, nofun⟩
  | var hx =>
    refine ⟨fun unit hl => ?_, nofun⟩
    rw [text]
    exact .name hx hl
  | @call x arguments hx _ ih =>
    refine ⟨fun unit hl => ?_, nofun⟩
    rw [isLegible, Bool.and_eq_true, elementsAreLegible_iff] at hl
    have htexts := forall₂_writes (fun t ht => (ih t ht).1) hl.2
    rw [text, texts_eq_map, String.toList_append, toList_parenthesized, toList_commaSeparated]
    exact .call hx hl.1 htexts
  | @unary op t h ih =>
    refine ⟨?_, nofun⟩
    by_cases hvector : ∃ e es, t = .vector (e :: es)
    · obtain ⟨e, es, rfl⟩ := hvector
      exact writesItself_unary_vector h.ofElements_eq (ih.2 _ rfl)
    · exact writesItself_unary (fun e es heq => hvector ⟨e, es, heq⟩) ih.1
  | binary op hs ht ihs iht =>
    exact ⟨writesItself_binary hs.alwaysWrapped ht.alwaysWrapped ihs.1 iht.1, nofun⟩
  | @elements es _ ih =>
    refine ⟨writesItself_ofElements fun e he => (ih e he).1, fun es' heq => ?_⟩
    obtain rfl := eq_of_ofElements_eq_vector heq
    exact fun e he => (ih e he).1
  | @rows rows columns hrows hcolumns _ ih =>
    refine ⟨writesItself_ofRows hrows hcolumns fun row hrow t ht => (ih row hrow t ht).1, ?_⟩
    intro es heq
    rcases ofRows_cases rows with ⟨vss, -, hrows⟩ | hrows <;> rw [hrows] at heq <;> cases heq

end Term

end Abacus
