import Abacus.Proofs.Evaluation.Folding
import Abacus.Proofs.Fraction.Exactness
import Abacus.Proofs.Fraction.WellFormed

/-!
# Values are read back from their texts

The text of a value is read into a term, and not always into a literal: what looks like a negative
integer is the negation of its magnitude, a proper fraction is the quotient of two integers, and a
boolean is the name of a constant. `Value.term` is the term that is read. It is written by the text
of the value (`Value.IsReadable.writes`) and it has the value that was written
(`Scope.evalThen_term`), so that a session which knows no more than the constants finds the value
again (`Session.evaluate_text`).

The negation and the quotient are exact because nothing larger than the parts of a fraction comes up
on the way. For the negation this takes the magnitude of the numerator to be an integer of 64 bits,
which it is if the fraction can be negated.

`Value.IsReadable` leaves out values whose texts mean something else. A vector of structures alone
looks like a matrix, and a matrix whose rows differ in length is not read at all; a matrix without
rows looks like an empty vector.
-/

namespace Abacus

open Binary64 (minInt maxInt)

/-! ### What the text of a value is read into -/

/-- The term that an integer is read into. The sign of a negative integer is an operator. -/
def Term.ofInt (n : Int) : Term :=
  if n < 0 then .unary .minus (.literal (.ofInt n.natAbs)) else .literal (.ofInt n.natAbs)

/-- The term that a fraction is read into, an integer or the quotient of two. -/
def Fraction.term (q : Fraction) : Term :=
  if q.denominator = 1 then .ofInt q.numerator
  else .binary (.arith .div) (.ofInt q.numerator) (.literal (.ofInt q.denominator))

namespace Value

mutual

/-- The term that a value is read into. Lists of literals are literals, and other lists are not. -/
def term : Value → Term
  | rational q => q.term
  | boolean b => .var (boolean b).text
  | vector elements => .ofElements (terms elements)
  | matrix rows => .ofRows (rowTerms rows)
  | v => .literal v

/-- The terms that values are read into. -/
def terms : List Value → List Term
  | [] => []
  | v :: vs => v.term :: terms vs

/-- The terms that rows of values are read into. -/
def rowTerms : List (List Value) → List (List Term)
  | [] => []
  | row :: rows => terms row :: rowTerms rows

end

theorem terms_eq_map (vs : List Value) : terms vs = vs.map term := by
  induction vs with
  | nil => rfl
  | cons v vs ih => rw [terms, ih, List.map_cons]

theorem rowTerms_eq_map (rows : List (List Value)) : rowTerms rows = rows.map (List.map term) := by
  induction rows with
  | nil => rfl
  | cons row rows ih => rw [rowTerms, ih, terms_eq_map, List.map_cons]

theorem term_vector (vs : List Value) : (vector vs).term = .ofElements (vs.map term) := by
  rw [term, terms_eq_map]

theorem term_matrix (rows : List (List Value)) :
    (matrix rows).term = .ofRows (rows.map (List.map term)) := by
  rw [term, rowTerms_eq_map]

/-- Values whose texts say what they are. -/
inductive IsReadable : Value → Prop
  /-- A fraction in lowest terms that has a negative. -/
  | rational {q : Fraction} (hq : q.IsWellFormed) : IsReadable (rational q)
  | boolean (b : Bool) : IsReadable (boolean b)
  /-- A vector that is empty or has a scalar among its elements. -/
  | vector {vs : List Value} (hscalar : vs = [] ∨ ∃ v ∈ vs, v.isScalar)
      (h : ∀ v ∈ vs, IsReadable v) : IsReadable (vector vs)
  /-- A matrix with rows of one length, which may be zero. -/
  | matrix {rows : List (List Value)} {columns : Nat} (hrows : rows ≠ [])
      (hcolumns : ∀ row ∈ rows, row.length = columns) (h : ∀ row ∈ rows, ∀ v ∈ row, IsReadable v) :
      IsReadable (matrix rows)

end Value

/-! ### The text writes the term -/

namespace Writes

variable {known : List String} {unit : Bool} {text : List Char} {t : Term}

/-- A minus sign in front of an operand. -/
theorem minus (h : Writes known unit 6 text t) :
    Writes known unit 6 ('-' :: text) (.unary .minus t) := by
  obtain ⟨ts, hd, hspells⟩ := h.spells
  refine ⟨List.forall_mem_cons.2 ⟨rfl, h.plain⟩, ⟨'-', rfl, rfl⟩, _,
    .unary UnaryOp.minus.unary?_operator hd, ?_⟩
  intro place hplace rest us hends hrest
  -- no group is opened by the sign, and the operand stands where the sign stands
  have hafter : place.after (.op .minus) = place :=
    hplace.after_eq (.inr ⟨_, by decide, rfl⟩)
  have hoperand : Spells known (place.after (.op .minus)) (text ++ rest) (ts ++ us) :=
    hafter.symm ▸ hspells place hplace rest us hends hrest
  exact Spells.operator (o := .minus) hplace rfl (fun hword => by cases hword)
    (fun _ => h.starts.append rest) hoperand

/-- An integer with its sign. -/
theorem ofInt {n : Int} (hn : (n.natAbs : Int) ≤ maxInt) :
    Writes known unit 6 (Decimal.intChars n) (.ofInt n) := by
  have hmagnitude : Writes known unit 6 (Decimal.digitChars n.natAbs)
      (.literal (.ofInt n.natAbs)) := (integer hn).mono (by decide)
  unfold Decimal.intChars Term.ofInt
  split
  · exact hmagnitude.minus
  · exact hmagnitude

/-- A fraction with its sign in front of the numerator. -/
theorem fraction {q : Fraction} (hq : q.IsNegatable) :
    Writes known unit 1 q.text.toList q.term := by
  have hnumerator : Writes known unit 6 (Decimal.intChars q.numerator) (.ofInt q.numerator) :=
    ofInt hq.natAbs_numerator_le
  unfold Fraction.text Fraction.term
  split
  · rw [Decimal.integer, String.toList_ofList]
    exact hnumerator.mono (by decide)
  · -- the sign binds tighter than the slash
    have hdenominator : Writes known unit 7 (Decimal.digitChars q.denominator)
        (.literal (.ofInt q.denominator)) := integer q.denominator_le
    have hquotient : Writes known unit (BinaryOp.arith .div).priority
        (Decimal.intChars q.numerator ++ (BinaryOp.arith .div).separator.toList ++
          Decimal.digitChars q.denominator)
        (.binary (.arith .div) (.ofInt q.numerator) (.literal (.ofInt q.denominator))) :=
      .binary rfl (hnumerator.mono (by decide)) (hdenominator.mono (by decide))
    have hseparator : (BinaryOp.arith .div).separator = "/" := by decide +kernel
    have hdigits : Decimal.intChars q.denominator = Decimal.digitChars q.denominator :=
      if_neg (Int.natCast_nonneg _).not_gt
    rw [Decimal.integer, Decimal.integer, hdigits, ← hseparator, String.toList_append,
      String.toList_append, String.toList_ofList, String.toList_ofList]
    exact hquotient.mono (by decide)

/-- The name of a boolean. -/
theorem boolean (b : Bool) :
    Writes known unit 7 (Value.text (.boolean b)).toList (.var (Value.text (.boolean b))) := by
  refine name (by cases b <;> decide +kernel) (nameIsLegible_iff.2 (.inr (.inl ?_)))
  -- neither of the two names spells an operator
  cases b <;> decide +kernel

end Writes

namespace Value

variable {known : List String} {v : Value}

theorem isBraced_ofInt (n : Int) : (Term.ofInt n).isBraced = false := by
  unfold Term.ofInt
  split <;> rfl

/-- Scalars are read into terms without braces. -/
theorem isBraced_term_of_isScalar (h : v.isScalar) : v.term.isBraced = false := by
  cases v with
  | rational q =>
    rw [term, Fraction.term]
    split
    · exact isBraced_ofInt q.numerator
    · rfl
  | vector => cases h
  | matrix => cases h
  | function => cases h
  | _ => rfl

/-- **A readable value is written by its text.** -/
theorem IsReadable.writes (h : v.IsReadable) : Writes known false 1 v.text.toList v.term := by
  induction h with
  | rational hq => exact .fraction (Fraction.isWellFormed_iff.1 hq)
  | boolean b => exact (Writes.boolean b).mono (by decide)
  | @vector vs hscalar _ ih =>
    -- the scalar is not in braces, which keeps the vector from being read as a matrix
    have hbraced : vs = [] ∨ ∃ v ∈ vs, v.term.isBraced = false :=
      hscalar.imp_right fun ⟨v, hv, hscalar⟩ => ⟨v, hv, isBraced_term_of_isScalar hscalar⟩
    rw [text, Term.valueTexts_eq_map, term_vector]
    exact (Term.writes_braced hbraced ih).mono (by decide)
  | matrix hrows hcolumns _ ih =>
    rw [text, Term.valueRowTexts_eq_map, term_matrix]
    exact (Term.writes_bracedRows hrows hcolumns ih).mono (by decide)

end Value

/-! ### The term has the value -/

namespace Fraction

/-- A negative integer is the negative of its magnitude. -/
theorem neg_ofInt_natAbs {n : Int} (hneg : n < 0) (hn : (n.natAbs : Int) ≤ maxInt) :
    (ofInt n.natAbs).neg = ofInt n := by
  have hrange : -maxInt ≤ (n.natAbs : Int) ∧ -maxInt ≤ n ∧ n ≤ maxInt := by
    simp only [maxInt] at *
    omega
  have hcast : ((n.natAbs : Int) : ℚ) = -n := by
    rw [Int.natCast_natAbs, abs_of_neg hneg, Int.cast_neg]
  refine toRat_injective ?_
  rw [neg_toRat (isNegatable_ofInt hrange.1 hn),
    toRat_ofInt (minInt_le_of_neg_maxInt_le hrange.1) hn,
    toRat_ofInt (minInt_le_of_neg_maxInt_le hrange.2.1) hrange.2.2, hcast, neg_neg]

/-- A fraction is the quotient of its parts. -/
theorem div?_parts {q : Fraction} (hq : q.IsNegatable) :
    (ofInt q.numerator).div? (ofInt q.denominator) = some q := by
  rw [div?_eq_some_iff, toRat_ofInt q.minInt_le q.le_maxInt,
    toRat_ofInt (by simp only [minInt]; omega) q.denominator_le, Int.cast_natCast]
  exact ⟨q.denominator_ne_zero, hq, q.toRat_eq_div⟩

theorem ofInt_numerator {q : Fraction} (hq : q.denominator = 1) : ofInt q.numerator = q :=
  Fraction.ext (numerator_ofInt q.minInt_le q.le_maxInt) hq.symm

end Fraction

namespace Scope

variable {s : Scope} {enter : Option Enter} {locals : Bindings}

theorem evalThen_ofInt {n : Int} (hn : (n.natAbs : Int) ≤ maxInt)
    (next : Value → Except Fault Value) :
    s.evalThen enter locals (.ofInt n) next = next (.ofInt n) := by
  unfold Term.ofInt
  split
  · next hneg =>
    -- the sign is applied to the magnitude, which has a negative
    rw [evalThen_unary_literal]
    change next (.rational (Fraction.ofInt n.natAbs).neg) = _
    rw [Fraction.neg_ofInt_natAbs hneg hn]
    rfl
  · next hneg =>
    have hmagnitude : (n.natAbs : Int) = n := by omega
    rw [hmagnitude, evalThen]

theorem evalThen_fraction {q : Fraction} (hq : q.IsNegatable)
    (next : Value → Except Fault Value) :
    s.evalThen enter locals q.term next = next (.rational q) := by
  have hn := hq.natAbs_numerator_le
  unfold Fraction.term
  split
  · next hinteger =>
    rw [evalThen_ofInt hn, Value.ofInt, Fraction.ofInt_numerator hinteger]
  · have hdiv : BinaryOp.apply (.arith .div) (.ofInt q.numerator) (.ofInt q.denominator) =
        .ok (.rational q) := by
      simp [BinaryOp.apply, Value.arith, Value.arithScalars, Value.ofInt, Fraction.arith?,
        Fraction.div?_parts hq]
    rw [evalThen_binary, evalThen_ofInt hn, ok_bind, evalThen, ok_bind, hdiv, ok_bind]

/-- **The term of a readable value has this value**, where the booleans have their names. -/
theorem evalThen_term
    (hbooleans : ∀ b, s.lookup? locals (Value.text (.boolean b)) = some (.boolean b)) {v : Value}
    (hv : v.IsReadable) : s.evalThen enter locals v.term .ok = .ok v := by
  induction hv with
  | rational hq => exact evalThen_fraction (Fraction.isWellFormed_iff.1 hq) .ok
  | boolean b => rw [Value.term, evalThen, hbooleans]
  | vector _ _ ih =>
    rw [Value.term_vector, evalThen_ofElements, evalThen, evalElements_map ih, ok_bind]
  | matrix _ _ _ ih =>
    rw [Value.term_matrix, evalThen_ofRows, evalThen, evalRows_map ih, ok_bind]

theorem eval_term
    (hbooleans : ∀ b, s.lookup? .empty (Value.text (.boolean b)) = some (.boolean b)) {v : Value}
    (hv : v.IsReadable) : s.eval v.term = .ok v := by
  unfold eval
  cases s.settings.maxDepth with
  | zero => exact evalThen_term hbooleans hv
  | succ calls => exact evalThen_term hbooleans hv

end Scope

/-- The term of a value is no assignment. -/
theorem Value.term_ne_assign (v : Value) (name : String) (t : Term) : v.term ≠ .assign name t := by
  intro h
  cases v with
  | rational q =>
    simp only [term, Fraction.term, Term.ofInt] at h
    split at h
    · split at h <;> cases h
    · cases h
  | vector vs => exact Term.ofElements_ne (by simp) (by simp) _ h
  | matrix rows => exact Term.ofRows_ne (by simp) (by simp) _ h
  | _ => cases h

namespace Session

/-- **Values are read back from their texts.** Write a value as a text and evaluate the text in a
session that has just started. The outcome is the value, unless it is nested too deep. -/
theorem evaluate_text (settings : Settings) {v : Value} (hv : v.IsReadable) :
    ((start settings).evaluate v.text).1 = .ok v ∨
      ((start settings).evaluate v.text).1 = .error .nesting := by
  -- whatever names are known, the text is read into the term of the value
  rcases hv.writes.parse_eq with hparse | hparse
  · have hparse : (start settings).parse v.text = .ok v.term := hparse
    have hvalue : (start settings).scope.eval v.term = .ok v :=
      Scope.eval_term (fun b => by cases b <;> rfl) hv
    left
    simp only [evaluate, hparse, evaluateTerm, valueOf_of_ne_assign _ v.term_ne_assign, hvalue,
      ok_bind]
  · have hparse : (start settings).parse v.text = .error .nesting := hparse
    right
    simp only [evaluate, hparse]

/-- A vector with a negative fraction, a matrix and an empty vector. One row of the matrix has an
empty vector in it, and is not taken for a matrix of its own. -/
theorem evaluate_text_nested :
    let half : Fraction := ⟨-1, 2, by decide, by decide, by decide, by decide, by decide⟩
    let m : Value :=
      .matrix [[.boolean true, .ofInt (-9223372036854775807)], [.vector [], .ofInt 7]]
    let v : Value := .vector [.rational half, m, .vector []]
    v.IsReadable ∧
      v.text =
        "\x7b-1/2, \x7b\x7btrue, -9223372036854775807\x7d, \x7b\x7b\x7d, 7\x7d\x7d, \x7b\x7d\x7d" ∧
      ((start {}).evaluate v.text).1 = .ok v := by
  intro half m v
  have hempty : (Value.vector []).IsReadable := .vector (.inl rfl) (List.forall_mem_nil _)
  have hlargest : (Value.ofInt (-9223372036854775807)).IsReadable := .rational (by decide)
  have hseven : (Value.ofInt 7).IsReadable := .rational (by decide)
  have hm : m.IsReadable := by
    refine @Value.IsReadable.matrix _ 2 (by simp) (by simp) ?_
    simpa using ⟨⟨.boolean true, hlargest⟩, hempty, hseven⟩
  have hv : v.IsReadable := by
    refine .vector (.inr ⟨.rational half, by simp, rfl⟩) ?_
    simpa using ⟨.rational (by decide), hm, hempty⟩
  refine ⟨hv, by decide +kernel, (evaluate_text {} hv).resolve_right fun hnesting => ?_⟩
  -- the text is not nested too deep
  have hok : ((start {}).evaluate v.text).1.toBool = true := by decide +kernel
  rw [hnesting] at hok
  cases hok

end Session

end Abacus
