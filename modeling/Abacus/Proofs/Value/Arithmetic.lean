import Abacus.Proofs.Value.Functions

/-!
# When arithmetic fails

Arithmetic of values fails if and only if a function occurs in one of the operands, at whatever
depth, and it fails with a mismatch of types (`Value.arith_eq_error_iff`). No function is passed
over: it meets a scalar, an element of the other structure, or one of the zeros with which the
smaller structure is padded, even if the other structure is empty. And nothing else goes wrong, as
scalars are numbers and each structure next to a matrix is a matrix, too.

What the induction over the shapes of the operands carries is `MismatchUnless`, which says of a
computation both when it succeeds and how it fails. It passes from the elements of a list to the
list (`MismatchUnless.list`), so what remains for each shape is that the pairs of elements that
are combined contain just the functions of the two operands.
-/

namespace Abacus

/-! ### Computations that fail on a condition -/

/-- A computation that succeeds if and only if `p` holds, and fails with a mismatch of types
otherwise. -/
def MismatchUnless {α : Type} (p : Prop) (r : Except Fault α) : Prop :=
  Ends (fun _ => p) (fun fault => ¬ p ∧ fault.kind = .typeMismatch) r

namespace MismatchUnless

variable {α β : Type} {p q : Prop} {r : Except Fault α}

theorem congr (h : MismatchUnless p r) (hpq : p ↔ q) : MismatchUnless q r :=
  h.imp (fun _ => hpq.1) fun _ hfault => ⟨mt hpq.2 hfault.1, hfault.2⟩

theorem map (h : MismatchUnless p r) (f : α → β) : MismatchUnless p (f <$> r) :=
  Ends.map h fun _ => id

theorem error_iff (h : MismatchUnless p r) : (∃ fault, r = .error fault) ↔ ¬ p := by
  cases r with
  | ok a => exact iff_of_false (by simp) (not_not_intro h)
  | error fault => exact iff_of_true ⟨fault, rfl⟩ h.1

theorem exists_ok (h : MismatchUnless p r) (hp : p) : ∃ a, r = .ok a := by
  cases r with
  | ok a => exact ⟨a, rfl⟩
  | error fault => exact absurd hp h.1

/-- A list of computations fails if one of them does. -/
theorem list {as : List α} {f : α → Except Fault β} {p : α → Prop}
    (h : ∀ a ∈ as, MismatchUnless (p a) (f a)) :
    MismatchUnless (∀ a ∈ as, p a) (gather (as.map f)) := by
  induction as with
  | nil => exact List.forall_mem_nil _
  | cons a as ih =>
    obtain ⟨ha, has⟩ := List.forall_mem_cons.1 h
    have htail := ih has
    rw [List.map_cons, gather]
    generalize f a = r at ha
    generalize gather (as.map f) = rs at htail
    cases r with
    | error fault => exact ⟨fun hall => ha.1 (hall a List.mem_cons_self), ha.2⟩
    | ok b =>
      cases rs with
      | error fault => exact ⟨fun hall => htail.1 (List.forall_mem_cons.1 hall).2, htail.2⟩
      | ok bs => exact List.forall_mem_cons.2 ⟨ha, htail⟩

/-- A vector that is computed element by element. -/
theorem vector {as : List α} {f : α → Except Fault Value} {p : α → Prop}
    (h : ∀ a ∈ as, MismatchUnless (p a) (f a)) :
    MismatchUnless (∀ a ∈ as, p a) (Value.vector <$> gather (as.map f)) :=
  (list h).map Value.vector

/-- A matrix that is computed entry by entry. -/
theorem matrix {as : List α} {bs : α → List β} {f : α → β → Except Fault Value} {p : α → β → Prop}
    (h : ∀ a ∈ as, ∀ b ∈ bs a, MismatchUnless (p a b) (f a b)) :
    MismatchUnless (∀ a ∈ as, ∀ b ∈ bs a, p a b)
      (Value.matrix <$> gather (as.map fun a => gather ((bs a).map (f a)))) :=
  (list fun a ha => list (h a ha)).map Value.matrix

end MismatchUnless

/-! ### Padding -/

/-- What holds of the default holds of a list if and only if it holds of the list padded with the
default. -/
theorem forall_mem_range_getD {α : Type} {P : α → Prop} {d : α} (hd : P d) {xs : List α} {n : Nat}
    (hn : xs.length ≤ n) : (∀ i ∈ List.range n, P (xs.getD i d)) ↔ ∀ x ∈ xs, P x := by
  constructor
  · intro h x hx
    obtain ⟨i, hi, rfl⟩ := List.mem_iff_getElem.1 hx
    have hmem : i ∈ List.range n := List.mem_range.2 (hi.trans_le hn)
    simpa [List.getD_eq_getElem?_getD, List.getElem?_eq_getElem hi] using h i hmem
  · intro h i _
    rw [List.getD_eq_getElem?_getD]
    cases hx : xs[i]? with
    | none => exact hd
    | some x => exact h x (List.mem_of_getElem? hx)

namespace Value

theorem foldl_columns (rows : List (List Value)) (n : Nat) :
    rows.foldl (fun n row => max n row.length) n = max n (columns rows) := by
  unfold columns
  induction rows generalizing n with
  | nil => exact (Nat.max_zero n).symm
  | cons row rows ih =>
    rw [List.foldl_cons, List.foldl_cons, ih, ih (max 0 row.length), Nat.zero_max, Nat.max_assoc]

theorem columns_cons (row : List Value) (rows : List (List Value)) :
    columns (row :: rows) = max row.length (columns rows) := by
  rw [columns, List.foldl_cons, foldl_columns, Nat.zero_max]

theorem length_le_columns {rows : List (List Value)} {row : List Value} (h : row ∈ rows) :
    row.length ≤ columns rows := by
  induction rows with
  | nil => cases h
  | cons r rows ih =>
    rw [columns_cons]
    cases h with
    | head => exact Nat.le_max_left _ _
    | tail _ h => exact (ih h).trans (Nat.le_max_right _ _)

theorem length_getD_le_columns (rows : List (List Value)) (i : Nat) :
    (rows.getD i []).length ≤ columns rows := by
  rw [List.getD_eq_getElem?_getD]
  cases h : rows[i]? with
  | none => exact Nat.zero_le _
  | some row => exact length_le_columns (List.mem_of_getElem? h)

/-! ### Scalars -/

/-- What is neither a function nor a structure is a scalar. -/
theorem exists_scalar? {v : Value} (hfunction : ∀ f, v ≠ function f)
    (hvector : ∀ vs, v ≠ vector vs) (hmatrix : ∀ rows, v ≠ matrix rows) :
    ∃ x, v.scalar? = some x := by
  cases v with
  | function f => exact absurd rfl (hfunction f)
  | vector vs => exact absurd rfl (hvector vs)
  | matrix rows => exact absurd rfl (hmatrix rows)
  | _ => exact ⟨_, rfl⟩

theorem toNumber_of_scalar? {v : Value} {x : Float} (h : v.scalar? = some x) :
    v.toNumber = .ok x := by
  cases v <;> cases h <;> rfl

/-- Two scalars combine, whatever they are. -/
theorem exists_arithScalars (op : Arith) {v w : Value} {x y : Float} (hv : v.scalar? = some x)
    (hw : w.scalar? = some y) : ∃ u, arithScalars op v w = .ok u := by
  unfold arithScalars
  split
  · exact ⟨_, rfl⟩
  · exact ⟨_, rfl⟩
  · rw [toNumber_of_scalar? hv, toNumber_of_scalar? hw]
    exact ⟨_, rfl⟩

/-! ### Arithmetic of one shape with another -/

section Shapes

variable (op : Arith) {v w : Value} {x y : Float}

theorem arith_function_right (v : Value) (f : Definition) :
    arith op v (function f) = .error (.arithMismatch op v.kind .function) := by
  rw [arith]
  rfl

theorem arith_function_left (f : Definition) (w : Value) :
    arith op (function f) w = .error (.arithMismatch op .function w.kind) := by
  cases w with
  | function g => exact arith_function_right op (function f) g
  | _ => simp [arith, kind]

theorem arith_vectors (xs ys : List Value) :
    arith op (vector xs) (vector ys) =
      vector <$> gather ((List.range (max xs.length ys.length)).map fun i =>
        arith op (xs.getD i zero) (ys.getD i zero)) := by
  rw [arith]

theorem arith_matrices (xs ys : List (List Value)) :
    arith op (matrix xs) (matrix ys) =
      matrix <$> gather ((List.range (max xs.length ys.length)).map fun i =>
        gather ((List.range (max (columns xs) (columns ys))).map fun j =>
          arith op ((xs.getD i []).getD j zero) ((ys.getD i []).getD j zero))) := by
  rw [arith]

theorem arith_matrix_vector (xs : List (List Value)) (ys : List Value) :
    arith op (matrix xs) (vector ys) = arith op (matrix xs) (matrix (toRows ys)) := by
  conv_lhs => rw [arith]

theorem arith_vector_matrix (xs : List Value) (ys : List (List Value)) :
    arith op (vector xs) (matrix ys) = arith op (matrix (toRows xs)) (matrix ys) := by
  conv_lhs => rw [arith]

theorem arith_scalars (hv : v.scalar? = some x) (hw : w.scalar? = some y) :
    arith op v w = arithScalars op v w := by
  cases v <;> cases hv <;> cases w <;> cases hw <;> rw [arith] <;> simp

theorem arith_scalar_vector (hv : v.scalar? = some x) (ys : List Value) :
    arith op v (vector ys) = vector <$> gather (ys.map fun y => arith op v y) := by
  cases v <;> cases hv <;> rw [arith] <;> simp

theorem arith_scalar_matrix (hv : v.scalar? = some x) (ys : List (List Value)) :
    arith op v (matrix ys) =
      matrix <$> gather (ys.map fun row => gather (row.map fun y => arith op v y)) := by
  cases v <;> cases hv <;> rw [arith] <;> simp

theorem arith_vector_scalar (hw : w.scalar? = some y) (xs : List Value) :
    arith op (vector xs) w = vector <$> gather (xs.map fun x => arith op x w) := by
  cases w <;> cases hw <;> rw [arith] <;> simp

theorem arith_matrix_scalar (hw : w.scalar? = some y) (xs : List (List Value)) :
    arith op (matrix xs) w =
      matrix <$> gather (xs.map fun row => gather (row.map fun x => arith op x w)) := by
  cases w <;> cases hw <;> rw [arith] <;> simp

end Shapes

/-- **Induction along arithmetic.** The cases are the shapes of two operands, and the hypotheses are
about the pairs that are combined in their place. -/
@[elab_as_elim]
theorem pair_induction {motive : Value → Value → Prop}
    (functionRight : ∀ v f, motive v (function f))
    (functionLeft : ∀ f w, motive (function f) w)
    (vectors : ∀ xs ys, (∀ i, motive (xs.getD i zero) (ys.getD i zero)) →
      motive (vector xs) (vector ys))
    (matrices : ∀ xs ys, (∀ i j, motive ((xs.getD i []).getD j zero) ((ys.getD i []).getD j zero)) →
      motive (matrix xs) (matrix ys))
    (matrixVector : ∀ xs ys, motive (matrix xs) (matrix (toRows ys)) →
      motive (matrix xs) (vector ys))
    (vectorMatrix : ∀ xs ys, motive (matrix (toRows xs)) (matrix ys) →
      motive (vector xs) (matrix ys))
    (scalarVector : ∀ v x ys, v.scalar? = some x → (∀ y ∈ ys, motive v y) → motive v (vector ys))
    (scalarMatrix : ∀ v x ys, v.scalar? = some x → (∀ row ∈ ys, ∀ y ∈ row, motive v y) →
      motive v (matrix ys))
    (vectorScalar : ∀ xs w y, w.scalar? = some y → (∀ x ∈ xs, motive x w) → motive (vector xs) w)
    (matrixScalar : ∀ xs w y, w.scalar? = some y → (∀ row ∈ xs, ∀ x ∈ row, motive x w) →
      motive (matrix xs) w)
    (scalars : ∀ v w x y, v.scalar? = some x → w.scalar? = some y → motive v w) :
    ∀ v w, motive v w := by
  intro v w
  induction v, w using arith.induct with
  | case1 v f => exact functionRight v f
  | case2 f w => exact functionLeft f w
  | case3 xs ys ih => exact vectors xs ys ih
  | case4 xs ys ih => exact matrices xs ys ih
  | case5 xs ys ih => exact matrixVector xs ys ih
  | case6 xs ys ih => exact vectorMatrix xs ys ih
  -- the other operand is neither a function nor a structure, which leaves the scalars
  | case7 v ys hfunction hvector hmatrix ih =>
    obtain ⟨x, hx⟩ := exists_scalar? hfunction hvector hmatrix
    exact scalarVector v x ys hx ih
  | case8 v ys hfunction hmatrix hvector ih =>
    obtain ⟨x, hx⟩ := exists_scalar? hfunction hvector hmatrix
    exact scalarMatrix v x ys hx ih
  | case9 xs w hfunction hvector hmatrix ih =>
    obtain ⟨y, hy⟩ := exists_scalar? hfunction hvector hmatrix
    exact vectorScalar xs w y hy ih
  | case10 xs w hfunction hmatrix hvector ih =>
    obtain ⟨y, hy⟩ := exists_scalar? hfunction hvector hmatrix
    exact matrixScalar xs w y hy ih
  | case11 v w hfunctionw hfunctionv _ _ _ _ hvectorw hmatrixw hvectorv hmatrixv =>
    obtain ⟨x, hx⟩ := exists_scalar? hfunctionv hvectorv hmatrixv
    obtain ⟨y, hy⟩ := exists_scalar? hfunctionw hvectorw hmatrixw
    exact scalars v w x y hx hy

/-! ### Where functions occur -/

theorem isData_vector {vs : List Value} : (vector vs).IsData ↔ ∀ v ∈ vs, v.IsData := by
  simp only [isData_iff, mem_functions_vector]
  exact ⟨fun h v hv f hf => h f ⟨v, hv, hf⟩, fun h f ⟨v, hv, hf⟩ => h v hv f hf⟩

theorem isData_matrix {rows : List (List Value)} :
    (matrix rows).IsData ↔ ∀ row ∈ rows, (vector row).IsData := by
  simp only [isData_iff, mem_functions_vector, mem_functions_matrix]
  exact ⟨fun h row hrow f hf => h f ⟨row, hrow, hf⟩, fun h f ⟨row, hrow, hf⟩ => h row hrow f hf⟩

theorem isData_of_scalar? {v : Value} {x : Float} (h : v.scalar? = some x) : v.IsData := by
  cases v <;> cases h <;> rfl

theorem not_isData_function (f : Definition) : ¬ (function f).IsData := by
  obtain ⟨name, parameters, body⟩ := f
  rw [IsData, functions, Definition.functions]
  exact List.cons_ne_nil _ _

theorem functionsOfRows_vectors? {vs : List Value} {rows : List (List Value)}
    (h : vectors? vs = some rows) : functionsOfRows rows = functionsOfElements vs := by
  induction vs generalizing rows with
  | nil =>
    cases h
    rfl
  | cons v vs ih =>
    cases v with
    | vector elements =>
      simp only [vectors?, Option.map_eq_some_iff] at h
      obtain ⟨rest, hrest, rfl⟩ := h
      rw [functionsOfRows, functionsOfElements, functions, ih hrest]
    | _ => simp [vectors?] at h

/-- The rows of a vector next to a matrix contain the functions of the vector. -/
theorem isData_toRows {vs : List Value} : (matrix (toRows vs)).IsData ↔ (vector vs).IsData := by
  rw [IsData, IsData, functions, functions]
  unfold toRows
  split
  · rfl
  · cases h : vectors? vs with
    | none => rw [Option.getD_none, functionsOfRows, functionsOfRows, List.append_nil]
    | some rows => rw [Option.getD_some, functionsOfRows_vectors? h]

/-- The pairs of elements of two vectors that are padded with zeros. -/
theorem isData_pairs {xs ys : List Value} {n : Nat} (hxs : xs.length ≤ n) (hys : ys.length ≤ n) :
    (∀ i ∈ List.range n, (xs.getD i zero).IsData ∧ (ys.getD i zero).IsData) ↔
      (vector xs).IsData ∧ (vector ys).IsData := by
  have hzero : zero.IsData := rfl
  rw [isData_vector, isData_vector, forall₂_and, forall_mem_range_getD hzero hxs,
    forall_mem_range_getD hzero hys]

/-- The pairs of entries of two matrices, with zeros where an entry is missing. -/
theorem isData_pairsOfRows (xs ys : List (List Value)) :
    (∀ i ∈ List.range (max xs.length ys.length), ∀ j ∈ List.range (max (columns xs) (columns ys)),
      ((xs.getD i []).getD j zero).IsData ∧ ((ys.getD i []).getD j zero).IsData) ↔
      (matrix xs).IsData ∧ (matrix ys).IsData := by
  have hrow : ∀ i, (∀ j ∈ List.range (max (columns xs) (columns ys)),
      ((xs.getD i []).getD j zero).IsData ∧ ((ys.getD i []).getD j zero).IsData) ↔
      (vector (xs.getD i [])).IsData ∧ (vector (ys.getD i [])).IsData := fun i =>
    isData_pairs ((length_getD_le_columns xs i).trans (Nat.le_max_left _ _))
      ((length_getD_le_columns ys i).trans (Nat.le_max_right _ _))
  have hnil : (vector []).IsData := rfl
  have hpad : ∀ {rows : List (List Value)} {n : Nat}, rows.length ≤ n →
      ((∀ i ∈ List.range n, (vector (rows.getD i [])).IsData) ↔ (matrix rows).IsData) := by
    intro rows n hn
    rw [isData_matrix]
    exact forall_mem_range_getD (P := fun row => (vector row).IsData) hnil hn
  simp only [hrow]
  rw [forall₂_and, hpad (Nat.le_max_left _ _), hpad (Nat.le_max_right _ _)]

/-! ### Arithmetic -/

/-- Arithmetic succeeds if and only if no function occurs in the operands. -/
theorem mismatchUnless_arith (op : Arith) (v w : Value) :
    MismatchUnless (v.IsData ∧ w.IsData) (arith op v w) := by
  induction v, w using pair_induction with
  | functionRight v f =>
    rw [arith_function_right]
    exact ⟨fun h => not_isData_function f h.2, rfl⟩
  | functionLeft f w =>
    rw [arith_function_left]
    exact ⟨fun h => not_isData_function f h.1, rfl⟩
  | vectors xs ys ih =>
    -- the zeros that are padded with are no functions
    have hpairs := isData_pairs (Nat.le_max_left xs.length ys.length) (Nat.le_max_right _ _)
    rw [arith_vectors]
    exact (MismatchUnless.vector fun i _ => ih i).congr hpairs
  | matrices xs ys ih =>
    rw [arith_matrices]
    exact (MismatchUnless.matrix fun i _ j _ => ih i j).congr (isData_pairsOfRows xs ys)
  | matrixVector xs ys ih =>
    -- the rows that are made of the vector hold the functions of the vector
    rw [arith_matrix_vector]
    exact ih.congr (and_congr_right' isData_toRows)
  | vectorMatrix xs ys ih =>
    rw [arith_vector_matrix]
    exact ih.congr (and_congr_left' isData_toRows)
  | scalarVector v x ys hx ih =>
    rw [arith_scalar_vector op hx]
    -- a scalar holds no function, so only the elements count
    refine (MismatchUnless.vector ih).congr ?_
    simp only [isData_vector, isData_of_scalar? hx, true_and]
  | scalarMatrix v x ys hx ih =>
    rw [arith_scalar_matrix op hx]
    refine (MismatchUnless.matrix ih).congr ?_
    simp only [isData_matrix, isData_vector, isData_of_scalar? hx, true_and]
  | vectorScalar xs w y hy ih =>
    rw [arith_vector_scalar op hy]
    refine (MismatchUnless.vector ih).congr ?_
    simp only [isData_vector, isData_of_scalar? hy, and_true]
  | matrixScalar xs w y hy ih =>
    rw [arith_matrix_scalar op hy]
    refine (MismatchUnless.matrix ih).congr ?_
    simp only [isData_matrix, isData_vector, isData_of_scalar? hy, and_true]
  | scalars v w x y hx hy =>
    obtain ⟨u, hu⟩ := exists_arithScalars op hx hy
    rw [arith_scalars op hx hy, hu]
    exact ⟨isData_of_scalar? hx, isData_of_scalar? hy⟩

/-- **Arithmetic fails exactly on functions.** It fails if and only if a function occurs in an
operand, at whatever depth, and then always with a mismatch of types. -/
theorem arith_eq_error_iff (op : Arith) (v w : Value) :
    ((∃ fault, arith op v w = .error fault) ↔ ∃ f, f ∈ v.functions ∨ f ∈ w.functions) ∧
      ∀ fault, arith op v w = .error fault → fault.kind = .typeMismatch := by
  have harith := mismatchUnless_arith op v w
  refine ⟨?_, fun fault hfault => (harith.of_error hfault).2⟩
  rw [harith.error_iff, not_and_or, IsData, IsData, List.eq_nil_iff_forall_not_mem,
    List.eq_nil_iff_forall_not_mem, not_forall_not, not_forall_not, exists_or]

end Value

end Abacus
