import Abacus.Value.Basic

/-!
# Bindings

A finite table from names to values, kept as a list sorted by name with each name once. The table is
seen through `get?`.
-/

namespace Abacus

/-- Values bound to names. -/
structure Bindings where
  entries : List (String × Value)

namespace Bindings

/-- No bindings. -/
def empty : Bindings := ⟨[]⟩

instance : Inhabited Bindings := ⟨empty⟩

/-- The value under a name in a list of entries. -/
def findEntry (name : String) : List (String × Value) → Option Value
  | [] => none
  | (x, v) :: rest => if name = x then some v else findEntry name rest

/-- The value bound to a name. -/
def get? (b : Bindings) (name : String) : Option Value := findEntry name b.entries

/-- The bound names, sorted. -/
def names (b : Bindings) : List String := b.entries.map Prod.fst

/-- Adds an entry to a sorted list in place of one with the same name. -/
def insertEntry (name : String) (v : Value) : List (String × Value) → List (String × Value)
  | [] => [(name, v)]
  | (x, w) :: rest =>
    if name = x then (name, v) :: rest
    else if name < x then (name, v) :: (x, w) :: rest
    else (x, w) :: insertEntry name v rest

/-- Binds a name, whatever it was bound to. -/
def insert (b : Bindings) (name : String) (v : Value) : Bindings :=
  ⟨insertEntry name v b.entries⟩

/-- Removes the entries under a name. -/
def eraseEntry (name : String) : List (String × Value) → List (String × Value)
  | [] => []
  | (x, v) :: rest => if name = x then eraseEntry name rest else (x, v) :: eraseEntry name rest

/-- Removes the binding of a name, if there is one. -/
def erase (b : Bindings) (name : String) : Bindings := ⟨eraseEntry name b.entries⟩

/-- The bindings of a list of pairs, of which the last counts for each name. -/
def ofList (pairs : List (String × Value)) : Bindings :=
  pairs.foldl (fun b p => b.insert p.1 p.2) empty

@[simp] theorem get?_empty (name : String) : empty.get? name = none := rfl

theorem findEntry_insertEntry (name other : String) (v : Value) (entries : List (String × Value)) :
    findEntry other (insertEntry name v entries) =
      if other = name then some v else findEntry other entries := by
  induction entries with
  | nil => simp [insertEntry, findEntry]
  | cons e entries ih =>
    obtain ⟨x, w⟩ := e
    simp only [insertEntry]
    split
    · next he => subst he; simp only [findEntry]; split <;> simp_all
    · split
      · simp only [findEntry]
      · next hne _ => simp only [findEntry, ih]; split <;> grind

theorem findEntry_eraseEntry (name other : String) (entries : List (String × Value)) :
    findEntry other (eraseEntry name entries) =
      if other = name then none else findEntry other entries := by
  induction entries with
  | nil => simp [eraseEntry, findEntry]
  | cons e entries ih =>
    obtain ⟨x, w⟩ := e
    simp only [eraseEntry]
    split
    · next he => subst he; rw [ih]; simp only [findEntry]; split <;> simp_all
    · next hne => simp only [findEntry, ih]; split <;> grind

theorem get?_insert (b : Bindings) (name other : String) (v : Value) :
    (b.insert name v).get? other = if other = name then some v else b.get? other :=
  findEntry_insertEntry name other v b.entries

theorem get?_erase (b : Bindings) (name other : String) :
    (b.erase name).get? other = if other = name then none else b.get? other :=
  findEntry_eraseEntry name other b.entries

end Bindings

end Abacus
