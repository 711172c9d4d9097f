import Abacus.Proofs.Fraction.Quotients
import Abacus.Proofs.Value.Arithmetic

/-!
# Sums and products commute

The operands of a sum or a product can change places (`Value.arith_comm`). For doubles and for
fractions this is an equation, and for fractions it says as well that a sum which cannot be computed
one way round cannot be computed the other way round.

For values in general it is not an equation, as the fault names the kinds of the operands in their
order. What the induction over the shapes carries is the half of it that speaks of values: what one
order yields, the other yields (`Reproduces`). That the orders fail together follows from
`Value.mismatchUnless_arith`, as both fail on the functions in their operands.
-/

namespace Abacus

/-- The operations whose operands can change places. -/
def Arith.commutative : List Arith := [.add, .mul]

/-! ### Doubles -/

namespace Binary64

open Float.Model (Format UnpackedFloat)
open Float.Model.UnpackedFloat (Sign)

theorem sign_mul_comm (s t : Sign) : s * t = t * s := by
  cases s <;> cases t <;> rfl

/-- A finite number as a multiple of the power of two with an exponent that is not larger. -/
def aligned (s : Sign) (m : Nat) (e smaller : Int) : Int :=
  s.apply (UnpackedFloat.decreaseExponent m e smaller).1

/-- Infinities and zeros of one sign add up, those of two signs have a sum of their own, and all
other sums are sums of integers. -/
theorem unpacked_add_comm (format : Format) (u v : UnpackedFloat) :
    UnpackedFloat.add format u v = UnpackedFloat.add format v u := by
  cases u with
  | notANumber => cases v <;> rfl
  | infinity s =>
    cases v with
    | infinity t => cases s <;> cases t <;> rfl
    | _ => rfl
  | zero s =>
    cases v with
    | zero t => cases s <;> cases t <;> rfl
    | _ => rfl
  | finite s m e hm =>
    cases v with
    | finite t n f hn =>
      calc UnpackedFloat.add format (.finite s m e hm) (.finite t n f hn)
        _ = UnpackedFloat.normalize format (aligned s m e (min e f) + aligned t n f (min e f))
              (min e f) .positive := rfl
        _ = UnpackedFloat.normalize format (aligned t n f (min f e) + aligned s m e (min f e))
              (min f e) .positive := by rw [Int.add_comm, min_comm e f]
        _ = UnpackedFloat.add format (.finite t n f hn) (.finite s m e hm) := rfl
    | _ => rfl

theorem unpacked_mul_comm (format : Format) (u v : UnpackedFloat) :
    UnpackedFloat.mul format u v = UnpackedFloat.mul format v u := by
  cases u with
  | notANumber => cases v <;> rfl
  | infinity s =>
    cases v with
    | notANumber | zero => rfl
    | infinity t | finite t => exact congrArg UnpackedFloat.infinity (sign_mul_comm s t)
  | zero s =>
    cases v with
    | notANumber | infinity => rfl
    | zero t | finite t => exact congrArg UnpackedFloat.zero (sign_mul_comm s t)
  | finite s m e hm =>
    cases v with
    | notANumber => rfl
    | infinity t => exact congrArg UnpackedFloat.infinity (sign_mul_comm s t)
    | zero t => exact congrArg UnpackedFloat.zero (sign_mul_comm s t)
    | finite t n f hn =>
      change UnpackedFloat.roundWithAccuracy format (s * t) (m * n) (e + f) .exact =
        UnpackedFloat.roundWithAccuracy format (t * s) (n * m) (f + e) .exact
      rw [sign_mul_comm s t, Nat.mul_comm m n, Int.add_comm e f]

/-- A sum or product of doubles, infinities, NaN and signed zeros among them. -/
theorem onDoubles_comm {op : Arith} (hop : op ∈ Arith.commutative) (x y : Float) :
    op.onDoubles x y = op.onDoubles y x := by
  have hpacked : ∀ {u v : UnpackedFloat}, u = v →
      Float.ofModel (Float.Model.pack u) = Float.ofModel (Float.Model.pack v) := fun h => h ▸ rfl
  simp only [Arith.commutative, List.mem_cons, List.not_mem_nil, or_false] at hop
  rcases hop with rfl | rfl
  · exact hpacked (unpacked_add_comm _ x.toModel.unpack y.toModel.unpack)
  · exact hpacked (unpacked_mul_comm _ x.toModel.unpack y.toModel.unpack)

end Binary64

/-! ### Fractions -/

namespace Fraction

/-- The numerators over the least common denominator change places with the fractions. -/
theorem common?_swap (p q : Fraction) :
    common? q p = (common? p q).map fun (x, y, lcm) => (y, x, lcm) := by
  have hlcm : (q.denominator : Int) / (p.denominator.gcd q.denominator : Nat) * p.denominator =
      p.denominator / (p.denominator.gcd q.denominator : Nat) * q.denominator := by
    have hp : ((p.denominator.gcd q.denominator : Nat) : Int) ∣ p.denominator :=
      Int.natCast_dvd_natCast.2 (Nat.gcd_dvd_left _ _)
    have hq : ((p.denominator.gcd q.denominator : Nat) : Int) ∣ q.denominator :=
      Int.natCast_dvd_natCast.2 (Nat.gcd_dvd_right _ _)
    rw [← Int.mul_ediv_assoc' _ hp, ← Int.mul_ediv_assoc' _ hq, Int.mul_comm]
  simp only [common?, Nat.gcd_comm q.denominator, hlcm]
  cases word? (p.denominator / (p.denominator.gcd q.denominator : Nat) * q.denominator) with
  | none => rfl
  | some lcm =>
    -- neither numerator is missing, or the sum is missing either way
    cases hx : word? (lcm / p.denominator * p.numerator) <;>
      cases hy : word? (lcm / q.denominator * q.numerator) <;> simp [hx, hy]

theorem add?_comm (p q : Fraction) : p.add? q = q.add? p := by
  rw [add?, add?, common?_swap p q]
  cases common? p q with
  | none => rfl
  | some parts =>
    obtain ⟨x, y, lcm⟩ := parts
    simp [Int.add_comm]

theorem mul?_comm (p q : Fraction) : p.mul? q = q.mul? p := by
  -- a product is missing only if there is no fraction for it
  refine Option.ext fun r => ?_
  rw [mul?_eq_some_iff, mul?_eq_some_iff, mul_comm]

theorem arith?_comm {op : Arith} (hop : op ∈ Arith.commutative) (p q : Fraction) :
    arith? op p q = arith? op q p := by
  simp only [Arith.commutative, List.mem_cons, List.not_mem_nil, or_false] at hop
  rcases hop with rfl | rfl
  · exact add?_comm p q
  · exact mul?_comm p q

end Fraction

/-! ### Computations that yield the same -/

/-- What one computation yields, the other yields, too. -/
def Reproduces {α : Type} (s r : Except Fault α) : Prop := ∀ a, r = .ok a → s = .ok a

namespace Reproduces

variable {α β : Type} {as : List α} {f g : α → Except Fault β}

theorem map {r s : Except Fault α} (h : Reproduces s r) (f : α → β) :
    Reproduces (f <$> s) (f <$> r) := by
  intro b hb
  obtain ⟨a, ha, rfl⟩ := map_eq_ok_iff.1 hb
  rw [h a ha]
  rfl

theorem list (h : ∀ a ∈ as, Reproduces (g a) (f a)) :
    Reproduces (gather (as.map g)) (gather (as.map f)) := by
  induction as with
  | nil => exact fun _ => id
  | cons a as ih =>
    obtain ⟨ha, has⟩ := List.forall_mem_cons.1 h
    rw [List.map_cons, List.map_cons, gather, gather]
    intro bs hbs
    obtain ⟨b, hb, hbs⟩ := bind_eq_ok_iff.1 hbs
    obtain ⟨cs, hcs, hbs⟩ := bind_eq_ok_iff.1 hbs
    rw [ha b hb, ok_bind, ih has cs hcs, ok_bind]
    exact hbs

/-- A vector that is computed element by element. -/
theorem vector {f g : α → Except Fault Value} (h : ∀ a ∈ as, Reproduces (g a) (f a)) :
    Reproduces (Value.vector <$> gather (as.map g)) (Value.vector <$> gather (as.map f)) :=
  (list h).map Value.vector

/-- A matrix that is computed entry by entry. -/
theorem matrix {bs : α → List β} {f g : α → β → Except Fault Value}
    (h : ∀ a ∈ as, ∀ b ∈ bs a, Reproduces (g a b) (f a b)) :
    Reproduces (Value.matrix <$> gather (as.map fun a => gather ((bs a).map (g a))))
      (Value.matrix <$> gather (as.map fun a => gather ((bs a).map (f a)))) :=
  (list fun a ha => list (h a ha)).map Value.matrix

end Reproduces

/-! ### Values -/

namespace Value

variable {op : Arith}

/-- Sums and products of scalars commute, of whatever kinds they are. -/
theorem arithScalars_comm (hop : op ∈ Arith.commutative) {v w : Value} {x y : Float}
    (hv : v.scalar? = some x) (hw : w.scalar? = some y) :
    arithScalars op v w = arithScalars op w v := by
  -- unless both are fractions or both are percentages, they combine as the doubles they are worth
  cases v <;> cases hv <;> cases w <;> cases hw <;>
    simp only [arithScalars, toNumber, ok_bind, Fraction.arith?_comm hop,
      Binary64.onDoubles_comm hop]

/-- What a sum or product of two values yields, it yields as well with the operands in the other
order. Each shape is met by the shape with the sides exchanged. -/
theorem reproduces_arith (hop : op ∈ Arith.commutative) (v w : Value) :
    Reproduces (arith op w v) (arith op v w) := by
  induction v, w using pair_induction with
  | functionRight v f =>
    intro u hu
    rw [arith_function_right] at hu
    cases hu
  | functionLeft f w =>
    intro u hu
    rw [arith_function_left] at hu
    cases hu
  | vectors xs ys ih =>
    rw [arith_vectors, arith_vectors, Nat.max_comm ys.length]
    exact .vector fun i _ => ih i
  | matrices xs ys ih =>
    rw [arith_matrices, arith_matrices, Nat.max_comm ys.length, Nat.max_comm (columns ys)]
    exact .matrix fun i _ j _ => ih i j
  | matrixVector xs ys ih =>
    rw [arith_vector_matrix, arith_matrix_vector]
    exact ih
  | vectorMatrix xs ys ih =>
    rw [arith_vector_matrix, arith_matrix_vector]
    exact ih
  | scalarVector v x ys hx ih =>
    rw [arith_vector_scalar op hx, arith_scalar_vector op hx]
    exact .vector ih
  | scalarMatrix v x ys hx ih =>
    rw [arith_matrix_scalar op hx, arith_scalar_matrix op hx]
    exact .matrix ih
  | vectorScalar xs w y hy ih =>
    rw [arith_scalar_vector op hy, arith_vector_scalar op hy]
    exact .vector ih
  | matrixScalar xs w y hy ih =>
    rw [arith_scalar_matrix op hy, arith_matrix_scalar op hy]
    exact .matrix ih
  | scalars v w x y hx hy =>
    rw [arith_scalars op hx hy, arith_scalars op hy hx, arithScalars_comm hop hx hy]
    exact fun _ => id

/-- **Sums and products commute.** With the operands in either order they have the same value, or
fail with a mismatch of types both ways. -/
theorem arith_comm (hop : op ∈ Arith.commutative) (v w : Value) :
    (∃ u, arith op v w = .ok u ∧ arith op w v = .ok u) ∨
      ∃ fault fault', arith op v w = .error fault ∧ arith op w v = .error fault' ∧
        fault.kind = .typeMismatch ∧ fault'.kind = .typeMismatch := by
  have hvw := mismatchUnless_arith op v w
  have hwv := mismatchUnless_arith op w v
  cases h : arith op v w with
  | ok u => exact .inl ⟨u, rfl, reproduces_arith hop v w u h⟩
  | error fault =>
    -- a function occurs in one of the operands, and it is there in the other order, too
    obtain ⟨hfunction, hkind⟩ := hvw.of_error h
    obtain ⟨fault', h'⟩ := hwv.error_iff.2 (mt And.symm hfunction)
    exact .inr ⟨fault, fault', rfl, h', hkind, (hwv.of_error h').2⟩

/-- A vector of vectors times a ragged matrix, with booleans, percentages, doubles and fractions
among the entries. -/
theorem arith_comm_ragged :
    let v := vector [vector [boolean true, percent 50.0], vector [ofInt 2]]
    let w := matrix [[ofInt 3], [], [double 0.5, vector [ofInt 4, percent 10.0]]]
    Arith.mul ∈ Arith.commutative ∧
      ∃ u, arith .mul v w = .ok u ∧ arith .mul w v = .ok u := by
  intro v w
  have hmul : Arith.mul ∈ Arith.commutative := by decide
  refine ⟨hmul, (arith_comm hmul v w).resolve_right ?_⟩
  rintro ⟨fault, -, hfault, -⟩
  -- no function occurs in the operands
  obtain ⟨u, hu⟩ := (mismatchUnless_arith .mul v w).exists_ok ⟨rfl, rfl⟩
  rw [hu] at hfault
  cases hfault

end Value

end Abacus
