import Abacus.Proofs.Value.Matrices
import Mathlib.Data.List.GetD

/-!
# Transposition

A matrix that is transposed twice is the matrix padded with zeros to the length of its longest row,
and matrices are combined before or after they are transposed alike (`Value.transpose_laws`). Both
need a row that is not empty: a matrix without any entry is transposed to one without rows, which
has forgotten how many rows there were.

Transposition and arithmetic pad rows to different lengths. What they have in common is that an
entry which is missing counts as zero (`Value.entry`), and that the result is a table of entries
(`Value.table`). So each of them is described by the entries of its result and by its two sizes, and
to transpose a table is to exchange its sizes and the arguments of its entries.
-/

namespace Abacus.Value

/-! ### Entries and tables -/

/-- The entry of a matrix in a row and a column, which is zero where the matrix has none. -/
def entry (rows : List (List Value)) (i j : Nat) : Value := (rows.getD i []).getD j zero

/-- The rows of a matrix of `m` rows and `n` columns with given entries. -/
def table (m n : Nat) (f : Nat → Nat → Value) : List (List Value) :=
  (List.range m).map fun i => (List.range n).map (f i)

/-- Rows padded with zeros to a length. -/
def padRows (n : Nat) (rows : List (List Value)) : List (List Value) :=
  rows.map fun row => row ++ List.replicate (n - row.length) zero

section

variable {m n i j : Nat} {f g : Nat → Nat → Value} {rows : List (List Value)}

@[simp] theorem length_table : (table m n f).length = m := by
  simp [table]

theorem columns_table (hm : 0 < m) : columns (table m n f) = n := by
  have hlength : ∀ row ∈ table m n f, row.length = n := by
    simp [table]
  have hne : table m n f ≠ [] := List.ne_nil_of_length_pos (by rwa [length_table])
  exact (columns_of_forall_length hlength).2 hne

theorem entry_table (hi : i < m) (hj : j < n) : entry (table m n f) i j = f i j := by
  simp [entry, table, List.getD_eq_getElem?_getD, hi, hj]

theorem entry_of_length_le (h : rows.length ≤ i) : entry rows i j = zero := by
  rw [entry, List.getD_eq_default _ _ h]
  rfl

theorem entry_of_columns_le (h : columns rows ≤ j) : entry rows i j = zero :=
  List.getD_eq_default _ _ ((length_getD_le_columns rows i).trans h)

theorem table_congr (h : ∀ i < m, ∀ j < n, f i j = g i j) : table m n f = table m n g :=
  List.map_congr_left fun i hi => List.map_congr_left fun j hj =>
    h i (List.mem_range.1 hi) j (List.mem_range.1 hj)

/-- A row padded with zeros lists its entries, and zeros. -/
theorem map_range_getD_zero {row : List Value} (hn : row.length ≤ n) :
    (List.range n).map (row.getD · zero) = row ++ List.replicate (n - row.length) zero := by
  refine List.ext_getElem (by simp; omega) fun j _ _ => ?_
  rw [List.getElem_map, List.getElem_range, List.getElem_append, List.getD_eq_getElem?_getD]
  split
  · next hj => rw [List.getElem?_eq_getElem hj, Option.getD_some]
  · next hj =>
    rw [List.getElem?_eq_none (Nat.not_lt.1 hj), Option.getD_none, List.getElem_replicate]

/-- Padded rows are the table of the entries. -/
theorem table_entry (rows : List (List Value)) :
    table rows.length (columns rows) (entry rows) = padRows (columns rows) rows := by
  calc table rows.length (columns rows) (entry rows)
      = rows.map fun row => (List.range (columns rows)).map (row.getD · zero) :=
        map_range_getD (fun row : List Value => (List.range (columns rows)).map (row.getD · zero))
          [] rows
    _ = padRows (columns rows) rows :=
        List.map_congr_left fun _ hrow => map_range_getD_zero (length_le_columns hrow)

theorem columns_pos (h : ∃ row ∈ rows, row ≠ []) : 0 < columns rows := by
  obtain ⟨row, hrow, hne⟩ := h
  exact (List.length_pos_iff.2 hne).trans_le (length_le_columns hrow)

theorem length_pos (h : ∃ row ∈ rows, row ≠ []) : 0 < rows.length := by
  obtain ⟨row, hrow, -⟩ := h
  exact List.length_pos_of_mem hrow

/-! ### Transposed matrices -/

theorem transposeRows_eq_table (rows : List (List Value)) :
    transposeRows rows = table (columns rows) rows.length fun j i => entry rows i j := by
  refine List.map_congr_left fun j _ => ?_
  exact (map_range_getD (fun row => row.getD j zero) [] rows).symm

@[simp] theorem length_transposeRows (rows : List (List Value)) :
    (transposeRows rows).length = columns rows := by
  rw [transposeRows_eq_table, length_table]

theorem columns_transposeRows (h : ∃ row ∈ rows, row ≠ []) :
    columns (transposeRows rows) = rows.length := by
  rw [transposeRows_eq_table, columns_table (columns_pos h)]

/-- Rows and columns are exchanged, also where there is no entry. -/
theorem entry_transposeRows (rows : List (List Value)) (i j : Nat) :
    entry (transposeRows rows) j i = entry rows i j := by
  rw [transposeRows_eq_table]
  by_cases hj : j < columns rows
  · by_cases hi : i < rows.length
    · exact entry_table hj hi
    · -- no column of the matrix is as long
      have hi : rows.length ≤ i := Nat.not_lt.1 hi
      rw [entry_of_length_le hi, entry_of_columns_le]
      rwa [columns_table (Nat.zero_lt_of_lt hj)]
  · have hj : columns rows ≤ j := Nat.not_lt.1 hj
    rw [entry_of_columns_le hj, entry_of_length_le]
    rwa [length_table]

theorem transposeRows_table (hm : 0 < m) (f : Nat → Nat → Value) :
    transposeRows (table m n f) = table n m fun j i => f i j := by
  rw [transposeRows_eq_table, columns_table hm, length_table]
  exact table_congr fun j hj i hi => entry_table hi hj

theorem transposeRows_transposeRows (h : ∃ row ∈ rows, row ≠ []) :
    transposeRows (transposeRows rows) = padRows (columns rows) rows := by
  rw [transposeRows_eq_table rows, transposeRows_table (columns_pos h), ← table_entry]

end

/-! ### Tables of computations -/

/-- A list of computations succeeds with what each of them succeeds with. -/
theorem gather_map_eq_ok {α β : Type} {r : α → Except Fault β} {f : α → β} {as : List α}
    (h : ∀ a ∈ as, r a = .ok (f a)) : gather (as.map r) = .ok (as.map f) := by
  induction as with
  | nil => rfl
  | cons a as ih =>
    obtain ⟨ha, has⟩ := List.forall_mem_cons.1 h
    rw [List.map_cons, List.map_cons, gather, ha, ih has]
    rfl

/-- If a list of computations succeeds, then each of them does. -/
theorem forall_of_gather_eq_ok {α β : Type} {r : α → Except Fault β} {as : List α} {bs : List β}
    (h : gather (as.map r) = .ok bs) : ∀ a ∈ as, ∃ b, r a = .ok b := by
  induction as generalizing bs with
  | nil => exact List.forall_mem_nil _
  | cons a as ih =>
    rw [List.map_cons, gather] at h
    obtain ⟨b, hb, h⟩ := bind_eq_ok_iff.1 h
    obtain ⟨cs, hcs, -⟩ := bind_eq_ok_iff.1 h
    exact List.forall_mem_cons.2 ⟨⟨b, hb⟩, ih hcs⟩

/-- A table of computations succeeds if and only if each of them does, with the table of the
results. -/
theorem gather_table_eq_ok_iff {m n : Nat} {r : Nat → Nat → Except Fault Value}
    {zs : List (List Value)} :
    gather ((List.range m).map fun i => gather ((List.range n).map (r i))) = .ok zs ↔
      ∃ f, (∀ i < m, ∀ j < n, r i j = .ok (f i j)) ∧ zs = table m n f := by
  constructor
  · intro h
    have hall : ∀ i j, ∃ v, i < m → j < n → r i j = .ok v := by
      intro i j
      by_cases hij : i < m ∧ j < n
      · obtain ⟨row, hrow⟩ := forall_of_gather_eq_ok h i (List.mem_range.2 hij.1)
        obtain ⟨v, hv⟩ := forall_of_gather_eq_ok hrow j (List.mem_range.2 hij.2)
        exact ⟨v, fun _ _ => hv⟩
      · exact ⟨zero, fun hi hj => absurd ⟨hi, hj⟩ hij⟩
    choose f hf using hall
    have hok : ∀ i < m, ∀ j < n, r i j = .ok (f i j) := fun i hi j hj => hf i j hi hj
    refine ⟨f, hok, ?_⟩
    have hrows : ∀ i ∈ List.range m,
        gather ((List.range n).map (r i)) = .ok ((List.range n).map (f i)) := fun i hi =>
      gather_map_eq_ok fun j hj => hok i (List.mem_range.1 hi) j (List.mem_range.1 hj)
    exact Except.ok.inj (h.symm.trans (gather_map_eq_ok hrows))
  · rintro ⟨f, hf, rfl⟩
    exact gather_map_eq_ok fun i hi =>
      gather_map_eq_ok fun j hj => hf i (List.mem_range.1 hi) j (List.mem_range.1 hj)

/-! ### Arithmetic of transposed matrices -/

variable (op : Arith) {xs ys : List (List Value)}

/-- What two matrices are combined to, entry by entry. -/
theorem arith_matrices_eq_ok_iff {u : Value} :
    arith op (matrix xs) (matrix ys) = .ok u ↔
      ∃ f, (∀ i < max xs.length ys.length, ∀ j < max (columns xs) (columns ys),
          arith op (entry xs i j) (entry ys i j) = .ok (f i j)) ∧
        u = matrix (table (max xs.length ys.length) (max (columns xs) (columns ys)) f) := by
  rw [arith_matrices, map_eq_ok_iff]
  constructor
  · rintro ⟨zs, hzs, rfl⟩
    obtain ⟨f, hf, rfl⟩ := gather_table_eq_ok_iff.1 hzs
    exact ⟨f, hf, rfl⟩
  · rintro ⟨f, hf, rfl⟩
    exact ⟨_, gather_table_eq_ok_iff.2 ⟨f, hf, rfl⟩, rfl⟩

/-- Transposed matrices are combined to the transposed matrix, if they are combined at all. -/
theorem arith_transposeRows_iff (hxs : ∃ row ∈ xs, row ≠ []) (hys : ∃ row ∈ ys, row ≠ [])
    {u : Value} :
    arith op (matrix (transposeRows xs)) (matrix (transposeRows ys)) = .ok u ↔
      ∃ zs, arith op (matrix xs) (matrix ys) = .ok (matrix zs) ∧
        u = matrix (transposeRows zs) := by
  have hrows : 0 < max xs.length ys.length := (length_pos hxs).trans_le (Nat.le_max_left _ _)
  simp only [arith_matrices_eq_ok_iff, length_transposeRows, columns_transposeRows hxs,
    columns_transposeRows hys, entry_transposeRows, matrix.injEq]
  constructor
  · rintro ⟨f, hf, rfl⟩
    refine ⟨_, ⟨fun i j => f j i, fun i hi j hj => hf j hj i hi, rfl⟩, ?_⟩
    rw [transposeRows_table hrows]
  · rintro ⟨_, ⟨f, hf, rfl⟩, rfl⟩
    refine ⟨fun j i => f i j, fun j hj i hi => hf i hi j hj, ?_⟩
    rw [transposeRows_table hrows]

/-- **Transposition is an involution up to padding and commutes with arithmetic.** Let matrices have
a row that is not empty. Transposed twice, such a matrix has its rows padded with zeros to the
length of the longest one. And whether two of them are combined before or after they are transposed,
the matrix is the same, or there is a mismatch of types both times. -/
theorem transpose_laws :
    (∀ rows : List (List Value), (∃ row ∈ rows, row ≠ []) →
      (transpose (matrix rows) >>= transpose) =
        .ok (matrix (padRows ((rows.map List.length).max?.getD 0) rows))) ∧
    ∀ (op : Arith) (xs ys : List (List Value)),
      (∃ row ∈ xs, row ≠ []) → (∃ row ∈ ys, row ≠ []) →
        (∃ zs, (arith op (matrix xs) (matrix ys) >>= transpose) = .ok (matrix zs) ∧
          (do arith op (← transpose (matrix xs)) (← transpose (matrix ys))) = .ok (matrix zs)) ∨
        ∃ fault fault', (arith op (matrix xs) (matrix ys) >>= transpose) = .error fault ∧
          (do arith op (← transpose (matrix xs)) (← transpose (matrix ys))) = .error fault' ∧
          fault.kind = .typeMismatch ∧ fault'.kind = .typeMismatch := by
  refine ⟨fun rows h => ?_, fun op xs ys hxs hys => ?_⟩
  · change Except.ok (matrix (transposeRows (transposeRows rows))) = _
    rw [transposeRows_transposeRows h, columns_eq_max?]
  · change (∃ zs, _ ∧ arith op (matrix (transposeRows xs)) (matrix (transposeRows ys)) = _) ∨
      ∃ _ _, _ ∧ arith op (matrix (transposeRows xs)) (matrix (transposeRows ys)) = _ ∧ _
    have htransposed := fun u => arith_transposeRows_iff op hxs hys (u := u)
    cases hzs : arith op (matrix xs) (matrix ys) with
    | ok u =>
      obtain ⟨f, -, rfl⟩ := (arith_matrices_eq_ok_iff op).1 hzs
      exact .inl ⟨_, rfl, (htransposed _).2 ⟨_, hzs, rfl⟩⟩
    | error fault =>
      cases hu : arith op (matrix (transposeRows xs)) (matrix (transposeRows ys)) with
      | ok u =>
        -- then the matrices would be combined before they are transposed, too
        obtain ⟨zs, hok, -⟩ := (htransposed u).1 hu
        rw [hzs] at hok
        cases hok
      | error fault' =>
        have hkind := ((mismatchUnless_arith op (matrix xs) (matrix ys)).of_error hzs).2
        have hkind' := ((mismatchUnless_arith op _ _).of_error hu).2
        exact .inr ⟨fault, fault', rfl, rfl, hkind, hkind'⟩

/-- A matrix with an empty row, and its difference with a wider one that has a vector among its
entries. -/
theorem transpose_laws_ragged :
    let xs := [[], [ofInt 1, ofInt 2]]
    let ys := [[ofInt 3, vector [ofInt 4], ofInt 5]]
    (∃ row ∈ xs, row ≠ []) ∧ (∃ row ∈ ys, row ≠ []) ∧
      (transpose (matrix xs) >>= transpose) =
        .ok (matrix [[zero, zero], [ofInt 1, ofInt 2]]) ∧
      ∃ zs, (arith .sub (matrix xs) (matrix ys) >>= transpose) = .ok (matrix zs) ∧
        (do arith .sub (← transpose (matrix xs)) (← transpose (matrix ys))) = .ok (matrix zs) := by
  intro xs ys
  have hxs : ∃ row ∈ xs, row ≠ [] := ⟨_, List.mem_cons_of_mem _ List.mem_cons_self, by simp⟩
  have hys : ∃ row ∈ ys, row ≠ [] := ⟨_, List.mem_cons_self, by simp⟩
  obtain ⟨hinvolution, hcommutes⟩ := transpose_laws
  refine ⟨hxs, hys, hinvolution xs hxs, ?_⟩
  rcases hcommutes .sub xs ys hxs hys with hok | ⟨fault, -, hfault, -⟩
  · exact hok
  · -- no function occurs in the matrices
    obtain ⟨u, hu⟩ := (mismatchUnless_arith .sub (matrix xs) (matrix ys)).exists_ok ⟨rfl, rfl⟩
    obtain ⟨f, -, rfl⟩ := (arith_matrices_eq_ok_iff .sub).1 hu
    rw [hu] at hfault
    cases hfault

end Abacus.Value
