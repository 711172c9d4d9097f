import Abacus.Proofs.Evaluation.Continuation
import Abacus.Proofs.Fraction.Exactness
import Abacus.Term.Basic

/-!
# Exact evaluation

Arithmetic of integers and of variables that are fractions falls back to doubles where an exact
result is missing. A double never turns into a fraction again, so a fraction that such a term is
evaluated to is the value of the term in the rational numbers (`Scope.evalWithin_exact`).

What a term is worth in the rational numbers is defined without fractions and without their limits
(`Term.worth?`). The invariant of the evaluation is `Value.IsExact`.
-/

namespace Abacus

/-! ### What a term is worth -/

/-- The unary operations of arithmetic. -/
def UnaryOp.arithmetic : List UnaryOp := [.plus, .minus, .abs, .sign, .rounding .trunc]

/-- The result of a unary operation of arithmetic on a rational number. -/
def UnaryOp.onRat? : UnaryOp → ℚ → Option ℚ
  | .plus, a => some a
  | .minus, a => some (-a)
  | .abs, a => some |a|
  | .sign, a => some (signRat a)
  | .rounding .trunc, a => some (truncRat a)
  | _, _ => none

namespace Term

/-- Terms of arithmetic: integers that fit into 64 bits, variables, and the operations of arithmetic
on such terms. -/
inductive IsArithmetic : Term → Prop
  | integer {n : Nat} (hn : (n : Int) ≤ Binary64.maxInt) : IsArithmetic (.literal (.ofInt n))
  | var (x : String) : IsArithmetic (.var x)
  | unary {op : UnaryOp} {t : Term} (hop : op ∈ UnaryOp.arithmetic) (h : IsArithmetic t) :
      IsArithmetic (.unary op t)
  | binary (op : Arith) {s t : Term} (hs : IsArithmetic s) (ht : IsArithmetic t) :
      IsArithmetic (.binary (.arith op) s t)

/-- What a term is worth in the rational numbers, given what its variables are worth. There is no
answer if an operation is not defined on its operands. -/
def worth? (worth : String → Option ℚ) : Term → Option ℚ
  | .literal (.rational q) => some q.toRat
  | .var x => worth x
  | .unary op t => (worth? worth t).bind op.onRat?
  | .binary (.arith op) s t =>
    (worth? worth s).bind fun a => (worth? worth t).bind fun b => op.onRats? a b
  | _ => none

end Term

/-! ### Exact values -/

namespace Value

/-- A value is exact if it is a double, which promises nothing, or the fraction of a given rational
number. -/
inductive IsExact : Value → Option ℚ → Prop
  | double (x : Float) (a : Option ℚ) : IsExact (.double x) a
  | rational {q : Fraction} (h : q.IsNegatable) : IsExact (.rational q) (some q.toRat)

theorem IsExact.of_eq {q : Fraction} {a : Option ℚ} (h : q.IsNegatable) (ha : a = some q.toRat) :
    (Value.rational q).IsExact a :=
  ha ▸ .rational h

/-- Unary operations of arithmetic keep values exact. -/
theorem IsExact.unary {op : UnaryOp} (hop : op ∈ UnaryOp.arithmetic) (context : OperationContext)
    {v : Value} {a : Option ℚ} (h : v.IsExact a) :
    ∃ w, op.apply context v = .ok w ∧ w.IsExact (a.bind op.onRat?) := by
  simp only [UnaryOp.arithmetic, List.mem_cons, List.not_mem_nil, or_false] at hop
  cases h with
  | double x a =>
    rcases hop with rfl | rfl | rfl | rfl | rfl <;> exact ⟨_, rfl, .double _ _⟩
  | @rational q h =>
    rcases hop with rfl | rfl | rfl | rfl | rfl
    · exact ⟨_, rfl, .of_eq h rfl⟩
    · exact ⟨_, rfl, .of_eq h.neg (congrArg some (Fraction.neg_toRat h).symm)⟩
    · exact ⟨_, rfl, .of_eq h.abs (congrArg some (Fraction.abs_toRat h).symm)⟩
    · obtain ⟨hsign, hnegatable⟩ := q.toRat_ofInt_sign
      exact ⟨_, rfl, .of_eq hnegatable (congrArg some hsign.symm)⟩
    · obtain ⟨htrunc, hnegatable⟩ := Fraction.trunc_toRat h
      exact ⟨_, rfl, .of_eq hnegatable (congrArg some htrunc.symm)⟩

/-- Arithmetic keeps values exact: two fractions combine exactly or become a double, and next to a
double everything does. -/
theorem IsExact.arith (op : Arith) {v w : Value} {a b : Option ℚ} (hv : v.IsExact a)
    (hw : w.IsExact b) :
    ∃ u, Value.arith op v w = .ok u ∧
      u.IsExact (a.bind fun a => b.bind fun b => op.onRats? a b) := by
  have hdouble : ∀ {v w : Value} {x y : Float}, Value.arith op v w = arithScalars op v w →
      arithScalars op v w = .ok (.double (op.onDoubles x y)) →
      ∃ u, Value.arith op v w = .ok u ∧
        u.IsExact (a.bind fun a => b.bind fun b => op.onRats? a b) :=
    fun harith hscalars => ⟨_, harith.trans hscalars, .double _ _⟩
  cases hv with
  | double x a =>
    -- next to a double the operation is that of doubles
    cases hw with
    | double y b => exact hdouble (by simp [Value.arith]) rfl
    | rational hq => exact hdouble (by simp [Value.arith]) rfl
  | @rational p hp =>
    cases hw with
    | double y b => exact hdouble (by simp [Value.arith]) rfl
    | @rational q hq =>
      have harith : Value.arith op (.rational p) (.rational q) =
          arithScalars op (.rational p) (.rational q) := by simp [Value.arith]
      cases hr : Fraction.arith? op p q with
      | none =>
        -- the exact result is missing, and the operation falls back to doubles
        exact hdouble harith (by rw [arithScalars, hr])
      | some r =>
        obtain ⟨hexact, hnegatable⟩ := Fraction.arith?_eq_some hr
        refine ⟨.rational r, ?_, .of_eq hnegatable hexact⟩
        rw [harith, arithScalars, hr]

end Value

/-! ### Evaluation -/

namespace Scope

/-- What the names of a scope are worth, if they are bound to fractions. -/
def worth? (s : Scope) (locals : Bindings) (x : String) : Option ℚ :=
  match s.lookup? locals x with
  | some (.rational q) => some q.toRat
  | _ => none

/-- A name that is bound to a fraction whose negative is one. -/
def IsFraction (s : Scope) (locals : Bindings) (x : String) : Prop :=
  ∃ q, s.lookup? locals x = some (.rational q) ∧ q.IsNegatable

/-- Terms of arithmetic are evaluated to exact values. -/
theorem exists_evalThen (s : Scope) (enter : Option Enter) (locals : Bindings) {t : Term}
    (ht : t.IsArithmetic) (hnames : ∀ x ∈ t.names, s.IsFraction locals x) :
    ∃ v, s.evalThen enter locals t .ok = .ok v ∧ v.IsExact (t.worth? (s.worth? locals)) := by
  induction ht with
  | @integer n hn =>
    have hmin : -Binary64.maxInt ≤ (n : Int) := by
      simp only [Binary64.maxInt]
      omega
    exact ⟨_, rfl, .rational (Fraction.isNegatable_ofInt hmin hn)⟩
  | var x =>
    obtain ⟨q, hq, hnegatable⟩ := hnames x (by simp [Term.names])
    refine ⟨.rational q, ?_, .of_eq hnegatable ?_⟩
    · rw [evalThen, hq]
    · rw [Term.worth?, worth?, hq]
  | @unary op t hop _ ih =>
    obtain ⟨v, hv, hexact⟩ := ih hnames
    obtain ⟨w, hw, hexact⟩ := hexact.unary hop s.operationContext
    refine ⟨w, ?_, hexact⟩
    rw [evalThen_unary s enter locals .ok, hv, ok_bind, hw]
    · rfl
    · -- the special forms are no operations of arithmetic
      rintro rfl
      simp [UnaryOp.arithmetic] at hop
    · rintro rfl
      simp [UnaryOp.arithmetic] at hop
  | @binary op left right _ _ ihl ihr =>
    simp only [Term.names, List.mem_append] at hnames
    obtain ⟨v, hv, hleft⟩ := ihl fun x hx => hnames x (.inl hx)
    obtain ⟨w, hw, hright⟩ := ihr fun x hx => hnames x (.inr hx)
    -- the values of the operands are combined, and what they are worth is combined alike
    obtain ⟨u, hu, hexact⟩ := hleft.arith op hright
    refine ⟨u, ?_, hexact⟩
    rw [evalThen_binary, hv, ok_bind, hw, ok_bind, BinaryOp.apply, hu]
    rfl

/-- **Exact arithmetic is never silently inexact.** A term of arithmetic over names that are bound
to fractions is evaluated to a fraction or to a double. If it is a fraction, then the term is worth
something in the rational numbers, and the fraction is just that. -/
theorem evalWithin_exact (s : Scope) (calls : Nat) (locals : Bindings) {t : Term}
    (ht : t.IsArithmetic) (hnames : ∀ x ∈ t.names, s.IsFraction locals x) :
    (∃ r, s.evalWithin calls locals t = .ok (.rational r) ∧
      t.worth? (s.worth? locals) = some r.toRat) ∨
      ∃ x, s.evalWithin calls locals t = .ok (.double x) := by
  obtain ⟨v, hv, hexact⟩ : ∃ v, s.evalWithin calls locals t = .ok v ∧
      v.IsExact (t.worth? (s.worth? locals)) := by
    -- terms of arithmetic call no functions, so the calls that are left do not matter
    cases calls with
    | zero => exact s.exists_evalThen none locals ht hnames
    | succ calls => exact s.exists_evalThen _ locals ht hnames
  generalize t.worth? (s.worth? locals) = a at hexact ⊢
  cases hexact with
  | double x => exact .inr ⟨x, hv⟩
  | @rational r => exact .inl ⟨r, hv, rfl⟩

/-- The power `(2 * x) ^ -(2)` is nine quarters where `x` is one third. -/
theorem evalWithin_exact_negative_power :
    let third : Fraction :=
      ⟨1, 3, by decide, by decide, by decide, by decide, by decide⟩
    let s : Scope := ⟨.ofList [("x", .rational third)], .radians, {}, none⟩
    let two : Term := .literal (.ofInt 2)
    let t : Term := .binary (.arith .pow) (.binary (.arith .mul) two (.var "x")) (.unary .minus two)
    t.IsArithmetic ∧ (∀ x ∈ t.names, s.IsFraction .empty x) ∧
      ∃ r, s.evalWithin 0 .empty t = .ok (.rational r) ∧ r.toRat = 9 / 4 ∧
        t.worth? (s.worth? .empty) = some r.toRat := by
  intro third s two t
  have htwo : two.IsArithmetic := @Term.IsArithmetic.integer 2 (by decide)
  have ht : t.IsArithmetic :=
    .binary .pow (.binary .mul htwo (.var "x")) (.unary (by decide) htwo)
  have hnames : ∀ x ∈ t.names, s.IsFraction .empty x := by
    intro x hx
    obtain rfl : x = "x" := by simpa [t, two, Term.names] using hx
    exact ⟨third, rfl, by decide⟩
  have hkind : (s.evalWithin 0 .empty t).toOption.map Value.kind = some .rational := by
    decide +kernel
  have hnine : t.worth? (s.worth? .empty) = some (9 / 4) := by
    decide +kernel
  refine ⟨ht, hnames, ?_⟩
  rcases evalWithin_exact s 0 .empty ht hnames with ⟨r, hr, hworth⟩ | ⟨x, hx⟩
  · exact ⟨r, hr, Option.some.inj (hworth.symm.trans hnine), hworth⟩
  · -- a double is not what the evaluation yields
    rw [hx] at hkind
    exact absurd hkind (by simp [Except.toOption, Value.kind])

end Scope

end Abacus
