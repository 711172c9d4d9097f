import Abacus.Proofs.Value.Arithmetic

/-!
# Arithmetic of matrices

A matrix is combined with another one entry by entry, each of them padded with zeros to the rows and
columns of the larger one. The vector of the rows of a matrix is combined with another such vector
row by row, where a missing row is a single zero, which then meets every element of the other row.
For matrices whose rows all have one length, the two ways lead to the same entries, or to the same
fault (`Value.arith_matrix`).

Both ways are one list of lists of computations (`Value.arithRows`), from which a matrix or a vector
of vectors is made at the end. That of the vectors is taken apart row by row: a row that is missing
on one side is a list of zeros as long as the row on the other side (`Value.arith_rows`).
-/

namespace Abacus

/-! ### Lists of computations -/

/-- What is made of each result can be made of all of them at the end. -/
theorem gather_map_map {α β γ : Type} (f : β → γ) (g : α → Except Fault β) (as : List α) :
    gather (as.map fun a => f <$> g a) = List.map f <$> gather (as.map g) := by
  induction as with
  | nil => rfl
  | cons a as ih =>
    rw [List.map_cons, List.map_cons, gather, gather, ih]
    cases g a with
    | error fault => rfl
    | ok b => cases gather (as.map g) <;> rfl

/-- There are as many results as there are computations, and each is that of one of them. -/
theorem gather_eq_ok {α β : Type} {f : α → Except Fault β} {as : List α} {bs : List β}
    (h : gather (as.map f) = .ok bs) :
    bs.length = as.length ∧ ∀ b ∈ bs, ∃ a ∈ as, f a = .ok b := by
  induction as generalizing bs with
  | nil =>
    cases h
    exact ⟨rfl, List.forall_mem_nil _⟩
  | cons a as ih =>
    rw [List.map_cons, gather] at h
    obtain ⟨b, hb, h⟩ := bind_eq_ok_iff.1 h
    obtain ⟨cs, hcs, h⟩ := bind_eq_ok_iff.1 h
    obtain rfl := pure_eq_ok_iff.1 h
    obtain ⟨hlength, hall⟩ := ih hcs
    refine ⟨congrArg (· + 1) hlength, List.forall_mem_cons.2 ⟨⟨a, List.mem_cons_self, hb⟩, ?_⟩⟩
    intro c hc
    obtain ⟨a', ha', hf⟩ := hall c hc
    exact ⟨a', List.mem_cons_of_mem a ha', hf⟩

theorem map_range_getD {α β : Type} (f : α → β) (d : α) (xs : List α) :
    (List.range xs.length).map (fun i => f (xs.getD i d)) = xs.map f := by
  refine List.ext_getElem (by simp) fun i hi _ => ?_
  have hi : i < xs.length := by simpa using hi
  simp [List.getD_eq_getElem?_getD, hi]

namespace Value

/-! ### Columns -/

theorem columns_append (xs ys : List (List Value)) :
    columns (xs ++ ys) = max (columns xs) (columns ys) := by
  rw [columns, List.foldl_append, foldl_columns]
  rfl

theorem columns_eq_max? (rows : List (List Value)) :
    columns rows = (rows.map List.length).max?.getD 0 := by
  induction rows with
  | nil => rfl
  | cons row rows ih =>
    rw [columns_cons, ih, List.map_cons, List.max?_cons]
    cases (rows.map List.length).max? <;> simp

theorem columns_of_forall_length {rows : List (List Value)} {n : Nat}
    (h : ∀ row ∈ rows, row.length = n) : columns rows ≤ n ∧ (rows ≠ [] → columns rows = n) := by
  induction rows with
  | nil => exact ⟨Nat.zero_le n, fun hne => absurd rfl hne⟩
  | cons row rows ih =>
    obtain ⟨hrow, hrows⟩ := List.forall_mem_cons.1 h
    have heq : columns (row :: rows) = n := by
      rw [columns_cons, hrow, Nat.max_eq_left (ih hrows).1]
    exact ⟨heq.le, fun _ => heq⟩

/-! ### Rows -/

variable (op : Arith)

/-- The entries of two matrices combined, with zeros where an entry is missing. -/
def arithRows (xs ys : List (List Value)) (columns : Nat) : Except Fault (List (List Value)) :=
  gather ((List.range (max xs.length ys.length)).map fun i =>
    gather ((List.range columns).map fun j =>
      arith op ((xs.getD i []).getD j zero) ((ys.getD i []).getD j zero)))

/-- An element of the vector of the rows of a matrix is a row, or a zero if there is none. -/
theorem row_cases {rows : List (List Value)} {n : Nat} (h : ∀ row ∈ rows, row.length = n)
    (i : Nat) :
    (∃ row, (rows.map vector).getD i zero = vector row ∧ rows.getD i [] = row ∧ row.length = n) ∨
      (rows.map vector).getD i zero = zero ∧ rows.getD i [] = [] ∧ rows.length ≤ i := by
  simp only [List.getD_eq_getElem?_getD, List.getElem?_map]
  cases hrow : rows[i]? with
  | none => exact .inr ⟨rfl, rfl, List.getElem?_eq_none_iff.1 hrow⟩
  | some row => exact .inl ⟨row, rfl, rfl, h row (List.mem_of_getElem? hrow)⟩

/-- Two rows as vectors are combined entry by entry, also if one of them is missing. -/
theorem arith_rows {xs ys : List (List Value)} {n i : Nat} (hxs : ∀ row ∈ xs, row.length = n)
    (hys : ∀ row ∈ ys, row.length = n) (hi : i < max xs.length ys.length) :
    arith op ((xs.map vector).getD i zero) ((ys.map vector).getD i zero) =
      vector <$> gather ((List.range n).map fun j =>
        arith op ((xs.getD i []).getD j zero) ((ys.getD i []).getD j zero)) := by
  have hzero : zero.scalar? = some Fraction.zero.toFloat := rfl
  rcases row_cases hxs i with ⟨row, hx, hx', hrow⟩ | ⟨hx, hx', hx''⟩ <;>
    rcases row_cases hys i with ⟨row', hy, hy', hrow'⟩ | ⟨hy, hy', hy''⟩ <;>
    rw [hx, hx', hy, hy']
  · rw [arith_vectors, hrow, hrow', Nat.max_self]
  · -- a zero meets every element of the row, as many as there are columns
    rw [arith_vector_scalar op hzero, ← map_range_getD _ zero row, hrow]
    rfl
  · rw [arith_scalar_vector op hzero, ← map_range_getD _ zero row', hrow']
    rfl
  · -- one of the matrices has a row with this number
    omega

/-- The vectors of the rows of two matrices are combined entry by entry. -/
theorem arith_vectors_of_rows {xs ys : List (List Value)} {n : Nat}
    (hxs : ∀ row ∈ xs, row.length = n) (hys : ∀ row ∈ ys, row.length = n) :
    arith op (vector (xs.map vector)) (vector (ys.map vector)) =
      (fun rows => vector (rows.map vector)) <$> arithRows op xs ys n := by
  have hrows : ∀ i ∈ List.range (max xs.length ys.length),
      arith op ((xs.map vector).getD i zero) ((ys.map vector).getD i zero) =
        vector <$> gather ((List.range n).map fun j =>
          arith op ((xs.getD i []).getD j zero) ((ys.getD i []).getD j zero)) :=
    fun i hi => arith_rows op hxs hys (List.mem_range.1 hi)
  rw [arith_vectors, List.length_map, List.length_map, List.map_congr_left hrows, gather_map_map,
    arithRows]
  cases gather _ <;> rfl

/-- Matrices whose rows have one length are combined in that many columns. -/
theorem arith_matrices_of_forall_length {xs ys : List (List Value)} {n : Nat}
    (hxs : ∀ row ∈ xs, row.length = n) (hys : ∀ row ∈ ys, row.length = n) :
    arith op (matrix xs) (matrix ys) = matrix <$> arithRows op xs ys n := by
  rw [arith_matrices, arithRows]
  have hlength : ∀ row ∈ xs ++ ys, row.length = n := fun row hrow =>
    (List.mem_append.1 hrow).elim (hxs row) (hys row)
  by_cases hne : xs ++ ys = []
  · -- without any row there is nothing to combine
    obtain ⟨rfl, rfl⟩ := List.append_eq_nil_iff.1 hne
    rfl
  · rw [← columns_append, (columns_of_forall_length hlength).2 hne]

/-- **Matrices are combined like the vectors of their rows.** If all rows of two matrices have one
length, then the matrices are combined to a matrix just where the vectors of their rows are combined
to the vector of its rows, and with the same fault otherwise. What any two matrices are combined to
is a matrix with as many rows as the longer one has, and each of its rows is as long as the longest
row of either. -/
theorem arith_matrix (xs ys : List (List Value)) :
    (∀ n, (∀ row ∈ xs, row.length = n) → (∀ row ∈ ys, row.length = n) →
      (∀ zs, arith op (matrix xs) (matrix ys) = .ok (matrix zs) ↔
        arith op (vector (xs.map vector)) (vector (ys.map vector)) =
          .ok (vector (zs.map vector))) ∧
      ∀ fault, arith op (matrix xs) (matrix ys) = .error fault ↔
        arith op (vector (xs.map vector)) (vector (ys.map vector)) = .error fault) ∧
    ∀ u, arith op (matrix xs) (matrix ys) = .ok u →
      ∃ zs, u = matrix zs ∧ zs.length = max xs.length ys.length ∧
        ∀ row ∈ zs, row.length = ((xs ++ ys).map List.length).max?.getD 0 := by
  constructor
  · intro n hxs hys
    rw [arith_matrices_of_forall_length op hxs hys, arith_vectors_of_rows op hxs hys]
    -- different matrices have different vectors of rows
    have hinjective : Function.Injective (List.map vector) :=
      List.map_injective_iff.2 fun _ _ => vector.inj
    cases arithRows op xs ys n with
    | error fault => exact ⟨fun zs => iff_of_false (by simp) (by simp), fun fault' => .rfl⟩
    | ok rows =>
      refine ⟨fun zs => ⟨fun h => ?_, fun h => ?_⟩, fun fault => iff_of_false (by simp) (by simp)⟩
      · cases h
        rfl
      · rw [hinjective (vector.inj (Except.ok.inj h))]
        rfl
  · intro u hu
    rw [arith_matrices] at hu
    obtain ⟨zs, hzs, rfl⟩ := map_eq_ok_iff.1 hu
    obtain ⟨hlength, hrows⟩ := gather_eq_ok hzs
    refine ⟨zs, rfl, by rw [hlength, List.length_range], fun row hrow => ?_⟩
    obtain ⟨i, -, hi⟩ := hrows row hrow
    rw [(gather_eq_ok hi).1, List.length_range, ← columns_append, columns_eq_max?]

/-- A matrix of one row minus one of two rows, with vectors among the entries. -/
theorem arith_matrix_nested :
    let xs := [[ofInt 1, vector [ofInt 2]]]
    let ys := [[ofInt 3, ofInt 4], [ofInt 5, vector [ofInt 6, ofInt 7]]]
    (∀ row ∈ xs, row.length = 2) ∧ (∀ row ∈ ys, row.length = 2) ∧
      ∃ zs, arith .sub (matrix xs) (matrix ys) = .ok (matrix zs) ∧
        arith .sub (vector (xs.map vector)) (vector (ys.map vector)) =
          .ok (vector (zs.map vector)) ∧
        zs.length = 2 ∧ ∀ row ∈ zs, row.length = 2 := by
  intro xs ys
  have hxs : ∀ row ∈ xs, row.length = 2 := by simp [xs]
  have hys : ∀ row ∈ ys, row.length = 2 := by simp [ys]
  obtain ⟨hagree, hshape⟩ := arith_matrix .sub xs ys
  obtain ⟨u, hu⟩ := (mismatchUnless_arith .sub (matrix xs) (matrix ys)).exists_ok ⟨rfl, rfl⟩
  obtain ⟨zs, rfl, hlength, hrows⟩ := hshape u hu
  exact ⟨hxs, hys, zs, hu, ((hagree 2 hxs hys).1 zs).1 hu, hlength, hrows⟩

end Value

end Abacus
