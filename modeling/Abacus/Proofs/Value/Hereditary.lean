import Abacus.Operation
import Abacus.Proofs.Fraction.Exactness
import Abacus.Proofs.Outcome

/-!
# What operations keep

Some properties hold of a vector or a matrix if and only if they hold of all that is in it, hold of
every double, percentage and boolean, and pass from a fraction to its negative, its magnitude and
the integers around it. `Value.Hereditary` is the list of these conditions. Operations keep such a
property: unary ones yield values that have it from operands that have it
(`UnaryOp.ends_apply`), and binary ones yield values that have it in any case, because arithmetic
makes all its fractions anew (`BinaryOp.ends_apply`).

The same induction shows how operations fail. They know nothing of names, so that none of their
faults says that a name is not bound (`Fault.NotUnbound`).
-/

namespace Abacus

/-- A fault that does not say that a name is not bound. -/
abbrev Fault.NotUnbound (fault : Fault) : Prop := fault.kind ≠ .unbound

namespace Fraction

theorem isNegatable_ofInt_of_nonneg {n : Int} (h : 0 ≤ n) : (ofInt n).IsNegatable := by
  simp only [IsNegatable, ofInt, Binary64.clamp, Binary64.minInt, Binary64.maxInt]
  omega

theorem isNegatable_of_make {n d : Int} {q : Fraction} (h : make n d = .ok q) :
    q.IsNegatable := by
  unfold make at h
  split at h
  · cases h
  · split at h
    · cases h
    · split at h
      · next hparts =>
        cases h
        exact (ofParts?_eq_some_iff.1 hparts).2.1
      · cases h

theorem isNegatable_of_near? {x tolerance : Float} {terms : Nat} {q : Fraction}
    (h : near? x tolerance terms = some q) : q.IsNegatable := by
  have hmake : ∀ {n d : Int}, (make n d).toOption = some q → q.IsNegatable := by
    intro n d hq
    cases h : make n d with
    | error fault =>
      rw [h] at hq
      cases hq
    | ok r =>
      rw [h] at hq
      cases hq
      exact isNegatable_of_make h
  unfold near? at h
  split at h
  · cases h
  · exact hmake h

end Fraction

namespace Value

/-- A property of values that rests on their scalars and functions, and passes from fractions to
those that unary operations make of them. -/
structure Hereditary (P : Value → Prop) : Prop where
  vector {vs : List Value} : P (.vector vs) ↔ ∀ v ∈ vs, P v
  matrix {rows : List (List Value)} : P (.matrix rows) ↔ ∀ row ∈ rows, ∀ v ∈ row, P v
  double (x : Float) : P (.double x)
  percent (x : Float) : P (.percent x)
  boolean (b : Bool) : P (.boolean b)
  rational {q : Fraction} (h : q.IsNegatable) : P (.rational q)
  neg {q : Fraction} (h : P (.rational q)) : P (.rational q.neg)
  abs {q : Fraction} (h : P (.rational q)) : P (.rational q.abs)
  rounding (mode : Rounding) {q : Fraction} (h : P (.rational q)) :
    P (.rational (mode.onFraction q))

/-! ### Values in other roles -/

mutual

theorem ends_toNumber : ∀ v : Value, Ends (fun _ => True) Fault.NotUnbound v.toNumber
  | .double _ | .rational _ | .percent _ | .boolean _ => trivial
  | .vector vs => ends_addElements vs _
  | .matrix rows => ends_addRows rows _
  | .function _ => nofun

theorem ends_addElements : ∀ (vs : List Value) (total : Float),
    Ends (fun _ => True) Fault.NotUnbound (addElements total vs)
  | [], _ => trivial
  | v :: vs, _ => (ends_toNumber v).bind fun _ _ => ends_addElements vs _

theorem ends_addRows : ∀ (rows : List (List Value)) (total : Float),
    Ends (fun _ => True) Fault.NotUnbound (addRows total rows)
  | [], _ => trivial
  | row :: rows, _ => (ends_addElements row _).bind fun _ _ => ends_addRows rows _

end

theorem ends_toBool (v : Value) : Ends (fun _ => True) Fault.NotUnbound v.toBool :=
  v.ends_toNumber.bind fun _ _ => trivial

theorem ends_compare (v w : Value) : Ends (fun _ => True) Fault.NotUnbound (v.compare w) := by
  unfold compare
  split
  · trivial
  · split
    · trivial
    · exact nofun
  · refine v.ends_toNumber.bind fun x _ => w.ends_toNumber.bind fun y _ => ?_
    split
    · trivial
    · exact nofun

theorem ends_toNatural (v : Value) : Ends (fun _ => True) Fault.NotUnbound v.toNatural := by
  unfold toNatural
  split
  · trivial
  · refine v.ends_toNumber.bind fun x _ => ?_
    split
    · trivial
    · exact nofun

/-- An exact factorial is a product of naturals. -/
theorem exactFactorial?_nonneg {n : Nat} {product : Int} (h : exactFactorial? n = some product) :
    0 ≤ product := by
  unfold exactFactorial? at h
  have hfold : ∀ (ks : List Nat) (a b : Int), 0 ≤ a →
      ks.foldlM (fun product (k : Nat) => Fraction.word? (product * k)) a = some b → 0 ≤ b := by
    intro ks
    induction ks with
    | nil =>
      intro a b ha hb
      cases hb
      exact ha
    | cons k ks ih =>
      intro a b ha hb
      rw [List.foldlM_cons] at hb
      obtain ⟨c, hc, hb⟩ := Option.bind_eq_some_iff.1 hb
      obtain ⟨rfl, -⟩ := Fraction.word?_eq_some_iff.1 hc
      exact ih _ _ (Int.mul_nonneg ha (Int.natCast_nonneg k)) hb
  exact hfold _ 1 product (by decide) h

theorem mem_of_vectors? {vs : List Value} {rows : List (List Value)} (h : vectors? vs = some rows) :
    ∀ row ∈ rows, vector row ∈ vs := by
  induction vs generalizing rows with
  | nil =>
    cases h
    exact nofun
  | cons v vs ih =>
    cases v with
    | vector elements =>
      simp only [vectors?, Option.map_eq_some_iff] at h
      obtain ⟨rest, hrest, rfl⟩ := h
      exact List.forall_mem_cons.2
        ⟨List.mem_cons_self, fun row hrow => List.mem_cons_of_mem _ (ih hrest row hrow)⟩
    | _ => simp [vectors?] at h

theorem hereditary_true : Hereditary fun _ => True := by
  constructor <;> intros <;> simp

namespace Hereditary

variable {P R : Value → Prop} {Q : Fault → Prop} {g : Value → Except Fault Value}

/-- The rows that elements make up consist of parts of the elements. -/
theorem of_mem_toRows (hP : Hereditary P) {elements : List Value} (h : ∀ v ∈ elements, P v) :
    ∀ row ∈ toRows elements, ∀ v ∈ row, P v := by
  intro row hrow
  unfold toRows at hrow
  split at hrow
  · rw [List.mem_singleton.1 hrow]
    exact nofun
  · cases hrows : vectors? elements with
    | none =>
      rw [hrows, Option.getD_none, List.mem_singleton] at hrow
      exact hrow ▸ h
    | some rows =>
      rw [hrows, Option.getD_some] at hrow
      exact hP.vector.1 (h _ (mem_of_vectors? hrows row hrow))

theorem ends_toVector (hP : Hereditary P) {v : Value} (h : P v) :
    Ends (fun vs => ∀ v ∈ vs, P v) Fault.NotUnbound v.toVector := by
  cases v with
  | vector vs => exact hP.vector.1 h
  | matrix rows =>
    refine List.forall_mem_map.2 fun row hrow => hP.vector.2 ?_
    exact hP.matrix.1 h row hrow
  | function f => exact nofun
  | _ => exact List.forall_mem_singleton.2 h

theorem ends_toMatrix (hP : Hereditary P) {v : Value} (h : P v) :
    Ends (fun rows => ∀ row ∈ rows, ∀ v ∈ row, P v) Fault.NotUnbound v.toMatrix := by
  cases v with
  | vector vs => exact hP.of_mem_toRows (hP.vector.1 h)
  | matrix rows => exact hP.matrix.1 h
  | function f => exact nofun
  | _ => exact List.forall_mem_singleton.2 (List.forall_mem_singleton.2 h)

/-! ### Element by element -/

mutual

/-- What is made of scalars one by one has a property if the results for single scalars have. -/
theorem ends_mapLeaves (hP : Hereditary P) (hR : Hereditary R)
    (hQ : ∀ fault : Fault, fault.NotUnbound → Q fault) (hg : ∀ x, P x → Ends R Q (g x)) :
    ∀ {v : Value}, P v → Ends R Q (v.mapLeaves g)
  | .vector _, h => (ends_mapElements hP hR hQ hg (hP.vector.1 h)).map fun _ => hR.vector.2
  | .matrix _, h => (ends_mapRows hP hR hQ hg (hP.matrix.1 h)).map fun _ => hR.matrix.2
  | .function _, _ => hQ _ nofun
  | .double x, h => hg (.double x) h
  | .rational q, h => hg (.rational q) h
  | .percent x, h => hg (.percent x) h
  | .boolean b, h => hg (.boolean b) h

theorem ends_mapElements (hP : Hereditary P) (hR : Hereditary R)
    (hQ : ∀ fault : Fault, fault.NotUnbound → Q fault) (hg : ∀ x, P x → Ends R Q (g x)) :
    ∀ {vs : List Value}, (∀ v ∈ vs, P v) → Ends (fun ws => ∀ w ∈ ws, R w) Q (mapElements g vs)
  | [], _ => nofun
  | _ :: _, h =>
    (ends_mapLeaves hP hR hQ hg (List.forall_mem_cons.1 h).1).bind fun _ hw =>
      (ends_mapElements hP hR hQ hg (List.forall_mem_cons.1 h).2).bind fun _ hws =>
        List.forall_mem_cons.2 ⟨hw, hws⟩

theorem ends_mapRows (hP : Hereditary P) (hR : Hereditary R)
    (hQ : ∀ fault : Fault, fault.NotUnbound → Q fault) (hg : ∀ x, P x → Ends R Q (g x)) :
    ∀ {rows : List (List Value)}, (∀ row ∈ rows, ∀ v ∈ row, P v) →
    Ends (fun rows => ∀ row ∈ rows, ∀ w ∈ row, R w) Q (mapRows g rows)
  | [], _ => nofun
  | _ :: _, h =>
    (ends_mapElements hP hR hQ hg (List.forall_mem_cons.1 h).1).bind fun _ hrow =>
      (ends_mapRows hP hR hQ hg (List.forall_mem_cons.1 h).2).bind fun _ hrows =>
        List.forall_mem_cons.2 ⟨hrow, hrows⟩

end

theorem ends_mapAsVector (hP : Hereditary P) (hR : Hereditary R)
    (hg : ∀ x, P x → Ends R Fault.NotUnbound (g x)) {v : Value} (h : P v) :
    Ends R Fault.NotUnbound (v.mapAsVector g) := by
  unfold mapAsVector
  split
  · exact ends_mapLeaves hP hR (fun _ => id) hg h
  · refine (hP.ends_toVector h).bind fun vs hvs => ?_
    refine (ends_mapElements hP hR (fun _ => id) hg hvs).bind fun ws hws => ?_
    split
    · exact hws _ List.mem_cons_self
    · exact hR.vector.2 hws

/-! ### Arithmetic -/

theorem ends_gather {α : Type} {S : α → Prop} {rs : List (Except Fault α)}
    (h : ∀ r ∈ rs, Ends S Fault.NotUnbound r) :
    Ends (fun as => ∀ a ∈ as, S a) Fault.NotUnbound (gather rs) := by
  induction rs with
  | nil => exact nofun
  | cons r rs ih =>
    obtain ⟨hr, hrs⟩ := List.forall_mem_cons.1 h
    exact hr.bind fun a ha => (ih hrs).bind fun as has => List.forall_mem_cons.2 ⟨ha, has⟩

/-- A vector that is computed element by element. -/
theorem ends_vector_gather (hP : Hereditary P) {α : Type} {as : List α}
    {f : α → Except Fault Value} (h : ∀ a ∈ as, Ends P Fault.NotUnbound (f a)) :
    Ends P Fault.NotUnbound (Value.vector <$> gather (as.map f)) :=
  (ends_gather (List.forall_mem_map.2 h)).map fun _ => hP.vector.2

/-- A matrix that is computed entry by entry. -/
theorem ends_matrix_gather (hP : Hereditary P) {α β : Type} {as : List α} {bs : α → List β}
    {f : α → β → Except Fault Value} (h : ∀ a ∈ as, ∀ b ∈ bs a, Ends P Fault.NotUnbound (f a b)) :
    Ends P Fault.NotUnbound
      (Value.matrix <$> gather (as.map fun a => gather ((bs a).map (f a)))) := by
  refine (ends_gather (List.forall_mem_map.2 fun a ha => ?_)).map fun _ => hP.matrix.2
  exact ends_gather (List.forall_mem_map.2 (h a ha))

/-- Fractions that arithmetic yields can be negated, whatever the operands. -/
theorem ends_arithScalars (hP : Hereditary P) (op : Arith) (v w : Value) :
    Ends P Fault.NotUnbound (arithScalars op v w) := by
  unfold arithScalars
  split
  · exact hP.percent _
  · next p q =>
    cases h : Fraction.arith? op p q with
    | none => exact hP.double _
    | some exact => exact hP.rational (Fraction.arith?_eq_some h).2
  · exact v.ends_toNumber.bind fun x _ => w.ends_toNumber.bind fun y _ => hP.double _

/-- The cases are the shapes of the operands. -/
theorem ends_arith (hP : Hereditary P) (op : Arith) (v w : Value) :
    Ends P Fault.NotUnbound (arith op v w) := by
  fun_induction arith op v w with
  | case1 => exact nofun
  | case2 => exact nofun
  | case3 xs ys ih => exact hP.ends_vector_gather fun i _ => ih i
  | case4 xs ys ih => exact hP.ends_matrix_gather fun i _ j _ => ih i j
  | case5 xs ys ih => exact ih
  | case6 xs ys ih => exact ih
  | case7 v ys _ _ _ ih => exact hP.ends_vector_gather ih
  | case8 v ys _ _ _ ih => exact hP.ends_matrix_gather ih
  | case9 xs w _ _ _ ih => exact hP.ends_vector_gather ih
  | case10 xs w _ _ _ ih => exact hP.ends_matrix_gather ih
  | case11 => exact hP.ends_arithScalars _ _ _

/-! ### Reductions -/

mutual

theorem ends_leaves (hP : Hereditary P) : ∀ {v : Value}, P v →
    Ends (fun xs => ∀ x ∈ xs, P x) Fault.NotUnbound v.leaves
  | .vector _, h => ends_leavesOfElements hP (hP.vector.1 h)
  | .matrix _, h => ends_leavesOfRows hP (hP.matrix.1 h)
  | .function _, _ => nofun
  | .double _, h | .rational _, h | .percent _, h | .boolean _, h => List.forall_mem_singleton.2 h

theorem ends_leavesOfElements (hP : Hereditary P) : ∀ {vs : List Value}, (∀ v ∈ vs, P v) →
    Ends (fun xs => ∀ x ∈ xs, P x) Fault.NotUnbound (leavesOfElements vs)
  | [], _ => nofun
  | _ :: _, h =>
    (ends_leaves hP (List.forall_mem_cons.1 h).1).bind fun _ hxs =>
      (ends_leavesOfElements hP (List.forall_mem_cons.1 h).2).bind fun _ hys =>
        List.forall_mem_append.2 ⟨hxs, hys⟩

theorem ends_leavesOfRows (hP : Hereditary P) :
    ∀ {rows : List (List Value)}, (∀ row ∈ rows, ∀ v ∈ row, P v) →
    Ends (fun xs => ∀ x ∈ xs, P x) Fault.NotUnbound (leavesOfRows rows)
  | [], _ => nofun
  | _ :: _, h =>
    (ends_leavesOfElements hP (List.forall_mem_cons.1 h).1).bind fun _ hxs =>
      (ends_leavesOfRows hP (List.forall_mem_cons.1 h).2).bind fun _ hys =>
        List.forall_mem_append.2 ⟨hxs, hys⟩

end

theorem ends_sum (hP : Hereditary P) (v : Value) : Ends P Fault.NotUnbound v.sum := by
  refine (hereditary_true.ends_leaves trivial).bind fun xs _ => ?_
  refine Ends.foldlM (hP.rational (by decide)) fun x _ total _ => ?_
  exact hP.ends_arith .add total x

theorem ends_count (hP : Hereditary P) (v : Value) : Ends P Fault.NotUnbound v.count := by
  refine (hereditary_true.ends_leaves trivial).bind fun xs _ => ?_
  exact hP.rational (Fraction.isNegatable_ofInt_of_nonneg (Int.natCast_nonneg _))

theorem ends_mean (hP : Hereditary P) (v : Value) : Ends P Fault.NotUnbound v.mean := by
  refine (hereditary_true.ends_leaves trivial).bind fun xs _ => ?_
  split
  · exact nofun
  · exact (hP.ends_sum v).bind fun total _ => hP.ends_arith .div total _

/-- The better of two elements is one of them. -/
theorem ends_extremum (hP : Hereditary P) (wanted : Ordering) {v : Value} (h : P v) :
    Ends P Fault.NotUnbound (v.extremum wanted) := by
  refine (hP.ends_leaves h).bind fun xs hxs => ?_
  cases xs with
  | nil => exact nofun
  | cons first rest =>
    obtain ⟨hfirst, hrest⟩ := List.forall_mem_cons.1 hxs
    refine Ends.foldlM hfirst fun x hx best hbest => ?_
    refine (ends_compare x best).bind fun o _ => ?_
    change P (if o == wanted then x else best)
    split
    · exact hrest x hx
    · exact hbest

/-! ### Single elements -/

theorem ends_negateScalar (hP : Hereditary P) {v : Value} (h : P v) :
    Ends P Fault.NotUnbound v.negateScalar := by
  unfold negateScalar
  split
  · exact hP.neg h
  · exact hP.percent _
  · exact v.ends_toNumber.bind fun x _ => hP.double _

theorem ends_absScalar (hP : Hereditary P) {v : Value} (h : P v) :
    Ends P Fault.NotUnbound v.absScalar := by
  unfold absScalar
  split
  · exact hP.abs h
  · exact hP.percent _
  · exact v.ends_toNumber.bind fun x _ => hP.double _

theorem ends_signScalar (hP : Hereditary P) (v : Value) :
    Ends P Fault.NotUnbound v.signScalar := by
  unfold signScalar
  split
  · next q => exact hP.rational q.toRat_ofInt_sign.2
  · exact v.ends_toNumber.bind fun x _ => hP.double _

theorem ends_roundScalar (hP : Hereditary P) (mode : Rounding) {v : Value} (h : P v) :
    Ends P Fault.NotUnbound (v.roundScalar mode) := by
  unfold roundScalar
  split
  · exact hP.rounding mode h
  · exact v.ends_toNumber.bind fun x _ => hP.double _

theorem ends_rationalScalar (hP : Hereditary P) (settings : Settings) {v : Value} (h : P v) :
    Ends P Fault.NotUnbound (v.rationalScalar settings) := by
  unfold rationalScalar
  split
  · exact h
  · refine v.ends_toNumber.bind fun x _ => ?_
    split
    · next hq => exact hP.rational (Fraction.isNegatable_of_near? hq)
    · exact nofun

theorem factorial (hP : Hereditary P) (n : Nat) : P (Value.factorial n) := by
  unfold Value.factorial
  split
  · exact hP.double _
  · split
    · next product hproduct =>
      exact hP.rational (Fraction.isNegatable_ofInt_of_nonneg (exactFactorial?_nonneg hproduct))
    · exact hP.double _

theorem ends_factorialScalar (hP : Hereditary P) (v : Value) :
    Ends P Fault.NotUnbound v.factorialScalar :=
  v.ends_toNatural.bind fun n _ => hP.factorial n

/-! ### Parts of a structure -/

/-- What is transposed are the entries of the matrix, padded with zeros. -/
theorem ends_transpose (hP : Hereditary P) {v : Value} (h : P v) :
    Ends P Fault.NotUnbound v.transpose := by
  refine (hP.ends_toMatrix h).bind fun rows hrows => hP.matrix.2 ?_
  refine List.forall_mem_map.2 fun j _ => List.forall_mem_map.2 fun row hrow => ?_
  rw [List.getD_eq_getElem?_getD]
  cases hentry : row[j]? with
  | none => exact hP.rational (by decide)
  | some entry => exact hrows row hrow entry (List.mem_of_getElem? hentry)

theorem ends_choose (hP : Hereditary P) {v : Value} (h : P v) :
    Ends P Fault.NotUnbound v.choose := by
  unfold choose
  split
  · next condition yes no =>
    have hparts := hP.vector.1 h
    refine condition.ends_toBool.bind fun b _ => ?_
    change P (if b then yes else no)
    split
    · exact hparts yes (by simp)
    · exact hparts no (by simp)
  · exact nofun

end Hereditary

end Value

/-! ### Operators -/

open Value (Hereditary)

variable {P : Value → Prop}

/-- **Unary operations keep hereditary properties**, and no fault of theirs is about names. -/
theorem UnaryOp.ends_apply (hP : Hereditary P) (op : UnaryOp) (context : OperationContext)
    {v : Value} (h : P v) : Ends P Fault.NotUnbound (op.apply context v) := by
  have hmap : ∀ {g : Value → Except Fault Value}, (∀ x, P x → Ends P Fault.NotUnbound (g x)) →
      Ends P Fault.NotUnbound (v.mapLeaves g) := fun hg => hP.ends_mapLeaves hP (fun _ => id) hg h
  cases op with
  | plus => exact hmap fun x hx => hx
  | minus => exact hmap fun x hx => hP.ends_negateScalar hx
  | not => exact hmap fun x _ => x.ends_toBool.bind fun b _ => hP.boolean _
  | circular f =>
    refine hP.ends_mapAsVector hP (fun x _ => ?_) h
    exact x.ends_toNumber.bind fun a _ => hP.double _
  | arc f =>
    refine hP.ends_mapAsVector hP (fun x _ => ?_) h
    exact x.ends_toNumber.bind fun a _ => hP.double _
  | real f => exact hmap fun x _ => x.ends_toNumber.bind fun a _ => hP.double _
  | abs => exact hmap fun x hx => hP.ends_absScalar hx
  | sign => exact hmap fun x _ => hP.ends_signScalar x
  | rounding mode => exact hmap fun x hx => hP.ends_roundScalar mode hx
  | factorial => exact hmap fun x _ => hP.ends_factorialScalar x
  | rational => exact hmap fun x hx => hP.ends_rationalScalar context.settings hx
  | sum => exact hP.ends_sum v
  | count => exact hP.ends_count v
  | min => exact hP.ends_extremum .lt h
  | max => exact hP.ends_extremum .gt h
  | mean => exact hP.ends_mean v
  | transpose => exact hP.ends_transpose h
  | conditional => exact hP.ends_choose h
  | conversion => exact nofun

/-- **Binary operations yield values with hereditary properties**, and no fault of theirs is about
names. -/
theorem BinaryOp.ends_apply (hP : Hereditary P) (op : BinaryOp) (v w : Value) :
    Ends P Fault.NotUnbound (op.apply v w) := by
  cases op with
  | arith op => exact hP.ends_arith op v w
  | relation rel => exact (Value.ends_compare v w).bind fun o _ => hP.boolean _
  | and =>
    refine v.ends_toBool.bind fun a _ => ?_
    cases a with
    | true => exact w.ends_toBool.bind fun b _ => hP.boolean _
    | false => exact hP.boolean _
  | or =>
    refine v.ends_toBool.bind fun a _ => ?_
    cases a with
    | true => exact hP.boolean _
    | false => exact w.ends_toBool.bind fun b _ => hP.boolean _

end Abacus
