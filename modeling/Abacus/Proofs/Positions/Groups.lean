import Abacus.Proofs.Positions.Basic
import Abacus.Proofs.Grammar.Brackets

/-!
# Groups by positions

The bracket that closes a group and the commas of a list are found by going through all tokens with
a level of nesting, which every kind of bracket changes, and their indices are what tokens are
sliced by. Brackets need not match: nothing is assumed of the tokens, and the level may be negative.

What makes every slice one that is there is that tokens are what stands in front of a slice, the
slice, and what stands behind it, with the two indices as lengths (`slice?_append`). In these terms
`closing?` finds a bracket where `Token.untilClosing` does, `splitCommas` and `groupItems?` find the
elements of a list, and `isMatrix` whether all of them are lists in braces.
-/

namespace Abacus.Positional

open Token (untilClosing group? elements elementsFrom braced? matrixRows? exists_elementsFrom
  elementsFrom_comma elementsFrom_cons)

/-- The index of the closing bracket that brings the level down to zero, given the level in front of
the tokens and the index of the first of them. -/
def closingFrom (level : Int) (index : Nat) : List Token → Option Nat
  | [] => none
  | t :: ts =>
    if t.isClosing ∧ level + t.nesting = 0 then some index
    else closingFrom (level + t.nesting) (index + 1) ts

/-- The index of the bracket that closes the one at an index. -/
def closing? (tokens : List Token) (index : Nat) : Option Nat :=
  closingFrom 0 index (tokens.drop index)

/-- The slices between commas, given the level in front of what is left of the tokens, the index at
which the slice starts that is not complete yet, and the index of the first token that is left. -/
def commasFrom (tokens : List Token) (level : Int) (start index : Nat) :
    List Token → Careful (List (List Token))
  | [] => do return [← reach (slice? tokens start tokens.length)]
  | t :: ts =>
    if level = 0 ∧ t.isComma then do
      let item ← reach (slice? tokens start index)
      let items ← commasFrom tokens level (index + 1) (index + 1) ts
      return item :: items
    else commasFrom tokens (level + t.nesting) start (index + 1) ts

/-- The slices between the commas outside of all brackets. No tokens have none. -/
def splitCommas (tokens : List Token) : Careful (List (List Token)) :=
  if tokens.isEmpty then return [] else commasFrom tokens 0 0 0 tokens

/-- The elements of the group that starts at an index, if it ends with the last token. -/
def groupItems? (tokens : List Token) (index last : Nat) :
    Careful (Option (List (List Token))) := do
  if closing? tokens index = some last then
    return some (← splitCommas (← reach (slice? tokens (index + 1) last)))
  else return none

/-- The elements between the first and the last token. -/
def innerItems (tokens : List Token) : Careful (List (List Token)) := do
  let last ← reach (lessOne? tokens.length)
  splitCommas (← reach (slice? tokens 1 last))

/-- Whether tokens are a list in braces. -/
def isBraceLiteral (tokens : List Token) : Careful Bool :=
  match tokens.head? with
  | some (.opening .curly) => do
    let last ← reach (lessOne? tokens.length)
    return closing? tokens 0 = some last
  | _ => return false

/-- Whether items are the rows of a matrix. -/
def isMatrix (items : List (List Token)) : Careful Bool :=
  if items.isEmpty then return false else items.allM isBraceLiteral

/-! ### Brackets -/

/-- The bracket that is found stands behind what is in front of it. -/
theorem exists_of_untilClosing {level : Nat} {ts inner rest : List Token}
    (h : untilClosing level ts = some (inner, rest)) : ∃ t, ts = inner ++ t :: rest := by
  induction ts generalizing level inner with
  | nil => cases h
  | cons t ts ih =>
    unfold untilClosing at h
    split at h
    · cases level with
      | zero =>
        cases h
        exact ⟨t, rfl⟩
      | succ level =>
        obtain ⟨⟨i, r⟩, hu, heq⟩ := Option.map_eq_some_iff.1 h
        cases heq
        obtain ⟨c, rfl⟩ := ih hu
        exact ⟨c, rfl⟩
    · obtain ⟨⟨i, r⟩, hu, heq⟩ := Option.map_eq_some_iff.1 h
      cases heq
      obtain ⟨c, rfl⟩ := ih hu
      exact ⟨c, rfl⟩

/-- A level counts the groups that are open. The index that is found is that of the bracket that
closes the outermost of them. -/
theorem closingFrom_eq (level index : Nat) (ts : List Token) :
    closingFrom (level + 1) index ts =
      (untilClosing level ts).map fun found => index + found.1.length := by
  induction ts generalizing level index with
  | nil => rfl
  | cons t ts ih =>
    -- one token further, the index has grown by one and the tokens in front have too
    have hnext : ∀ found : Option (List Token × List Token),
        (found.map fun found => index + 1 + found.1.length) =
          ((found.map fun found => (t :: found.1, found.2)).map
            fun found => index + found.1.length) := by
      intro found
      cases found with
      | none => rfl
      | some found =>
        rw [Option.map_some, Option.map_some, Option.map_some, List.length_cons]
        congr 1
        omega
    cases t with
    | opening b =>
      exact (ih (level + 1) (index + 1)).trans (hnext _)
    | closing b =>
      cases level with
      | zero => rfl
      | succ level =>
        have hlevel : ((level + 1 : Nat) : Int) + 1 + (Token.closing b).nesting = level + 1 := by
          show ((level + 1 : Nat) : Int) + 1 + -1 = level + 1
          omega
        have hne : (level : Int) + 1 ≠ 0 := by omega
        rw [closingFrom, hlevel, if_neg fun h => hne h.2]
        exact (ih level (index + 1)).trans (hnext _)
    | _ => exact (ih level (index + 1)).trans (hnext _)

theorem closing?_eq (front : List Token) (b : Bracket) (rest : List Token) :
    closing? (front ++ .opening b :: rest) front.length =
      (untilClosing 0 rest).map fun found => front.length + 1 + found.1.length := by
  rw [closing?, List.drop_left]
  exact closingFrom_eq 0 (front.length + 1) rest

/-- A bracket is closed by the last token exactly if the tokens behind it are a group. -/
theorem closing?_eq_some_iff (front : List Token) (b : Bracket) (rest : List Token) :
    closing? (front ++ .opening b :: rest) front.length = some (rest.length + front.length) ↔
      ∃ inner, group? rest = some inner := by
  rw [closing?_eq, group?]
  cases hu : untilClosing 0 rest with
  | none => simp
  | some found =>
    obtain ⟨inner, tail⟩ := found
    have hlength := Token.length_untilClosing hu
    rw [Option.map_some, Option.some.injEq]
    cases tail with
    | nil =>
      rw [List.length_nil] at hlength
      refine ⟨fun _ => ⟨inner, rfl⟩, fun _ => ?_⟩
      dsimp only
      omega
    | cons t tail =>
      rw [List.length_cons] at hlength
      constructor
      · intro heq
        dsimp only at heq
        omega
      · rintro ⟨inner', h⟩
        cases h

/-- The tokens of a group are those between its brackets. -/
theorem slice?_group {rest inner : List Token} (hg : group? rest = some inner) (front : List Token)
    (t : Token) :
    slice? (front ++ t :: rest) (front.length + 1) (rest.length + front.length) = some inner := by
  rw [group?] at hg
  split at hg
  · next hu =>
    cases hg
    obtain ⟨c, rfl⟩ := exists_of_untilClosing hu
    have htokens : front ++ t :: (inner ++ [c]) = (front ++ [t]) ++ (inner ++ [c]) := by simp
    have hstart : front.length + 1 = (front ++ [t]).length := by rw [List.length_append]; rfl
    have hstop : (inner ++ [c]).length + front.length = (front ++ [t]).length + inner.length := by
      rw [List.length_append, List.length_append, List.length_singleton, List.length_singleton]
      omega
    rw [htokens, hstart, hstop]
    exact slice?_append (front ++ [t]) inner [c]
  · cases hg

/-! ### Commas -/

/-- What was read of an element that is not complete is put in front of what is left of it. -/
theorem commasFrom_eq {level : Int} {ts element : List Token} {rest : List (List Token)}
    (h : elementsFrom level ts = element :: rest) (front part : List Token) :
    commasFrom (front ++ (part ++ ts)) level front.length (front.length + part.length) ts =
      pure ((part ++ element) :: rest) := by
  induction ts generalizing level front part element rest with
  | nil =>
    cases h
    rw [commasFrom, slice?_length, reach_some, List.append_nil]
    rfl
  | cons t ts ih =>
    by_cases ht : level = 0 ∧ t.isComma
    · -- the slice ends here, and the next one starts behind the comma
      obtain rfl := ht.1
      obtain rfl := Token.eq_comma_of_isComma ht.2
      obtain ⟨next, items, hnext⟩ := exists_elementsFrom 0 ts
      rw [elementsFrom_comma, hnext] at h
      cases h
      have hrest := ih hnext (front ++ (part ++ [.comma])) []
      rw [commasFrom, if_pos ht, slice?_append, reach_some, pure_bind, List.append_nil]
      simp only [List.append_assoc, List.singleton_append, List.nil_append, List.length_append,
        List.length_singleton, List.length_nil, Nat.add_zero, ← Nat.add_assoc] at hrest
      rw [hrest]
      rfl
    · obtain ⟨next, items, hnext⟩ := exists_elementsFrom (level + t.nesting) ts
      rw [elementsFrom_cons ht hnext] at h
      cases h
      have hrest := ih hnext front (part ++ [t])
      rw [commasFrom, if_neg ht]
      simp only [List.append_assoc, List.singleton_append, List.length_append,
        List.length_singleton, ← Nat.add_assoc] at hrest
      exact hrest

/-- **No slice is missed between commas.** -/
theorem splitCommas_eq (ts : List Token) : splitCommas ts = pure (elements ts) := by
  cases ts with
  | nil => rfl
  | cons t ts =>
    obtain ⟨element, rest, h⟩ := exists_elementsFrom 0 (t :: ts)
    exact (commasFrom_eq h [] []).trans (congrArg pure h.symm)

/-- A group that ends with the last token has the elements between its brackets. -/
theorem groupItems?_eq (front : List Token) (b : Bracket) (rest : List Token) :
    groupItems? (front ++ .opening b :: rest) front.length (rest.length + front.length) =
      pure ((group? rest).map elements) := by
  have hclosing := closing?_eq_some_iff front b rest
  rw [groupItems?]
  cases hg : group? rest with
  | none => exact if_neg (by simp [hclosing, hg])
  | some inner =>
    rw [if_pos (hclosing.2 ⟨inner, hg⟩), slice?_group hg, reach_some, pure_bind, splitCommas_eq,
      pure_bind]
    rfl

/-! ### Lists in braces -/

/-- The elements of a group are those between its brackets. -/
theorem innerItems_eq {rest inner : List Token} (hg : group? rest = some inner) (t : Token) :
    innerItems (t :: rest) = pure (elements inner) := by
  have hlast : lessOne? (t :: rest).length = some rest.length := rfl
  have hslice : slice? (t :: rest) 1 rest.length = some inner := slice?_group hg [] t
  rw [innerItems, hlast, reach_some, pure_bind, hslice, reach_some, pure_bind, splitCommas_eq]

theorem innerItems_of_braced? {item : List Token} {row : List (List Token)}
    (h : braced? item = some row) : innerItems item = pure row := by
  unfold braced? at h
  split at h
  · obtain ⟨inner, hg, rfl⟩ := Option.map_eq_some_iff.1 h
    exact innerItems_eq hg _
  · cases h

theorem isBraceLiteral_eq (ts : List Token) : isBraceLiteral ts = pure (braced? ts).isSome := by
  unfold isBraceLiteral braced?
  cases ts with
  | nil => rfl
  | cons t rest =>
    cases t with
    | opening b =>
      cases b with
      | curly =>
        have hlast : lessOne? (Token.opening .curly :: rest).length = some rest.length := rfl
        have hclosing : closing? (Token.opening .curly :: rest) 0 = some rest.length ↔
            ∃ inner, group? rest = some inner := closing?_eq_some_iff [] .curly rest
        simp only [List.head?_cons, hlast, reach_some, pure_bind, hclosing, Option.isSome_map,
          ← Option.isSome_iff_exists, Bool.decide_eq_true]
      | round => rfl
    | _ => rfl

/-- Items are the rows of a matrix if there are some and all are lists in braces. -/
theorem isMatrix_eq (items : List (List Token)) :
    isMatrix items = pure (matrixRows? items).isSome := by
  have hall : ∀ items : List (List Token),
      items.allM isBraceLiteral = pure (Token.rows? items).isSome := by
    intro items
    induction items with
    | nil => rfl
    | cons item items ih =>
      rw [List.allM, isBraceLiteral_eq, pure_bind, Token.rows?]
      cases braced? item with
      | none => rfl
      | some row =>
        refine ih.trans ?_
        cases Token.rows? items <;> rfl
  cases items with
  | nil => rfl
  | cons item items => exact hall (item :: items)

/-- Rows are read from the elements between the braces of each item. -/
theorem mapM_innerItems {β : Type} {items : List (List Token)} {rows : List (List (List Token))}
    (h : matrixRows? items = some rows) (f : List (List Token) → Careful β) :
    (items.mapM fun item => innerItems item >>= f) = rows.mapM f := by
  obtain ⟨-, hrows⟩ := Token.matrixRows?_eq_some_iff.1 h
  clear h
  induction hrows with
  | nil => rfl
  | cons hrow _ ih => rw [List.mapM_cons, List.mapM_cons, ih, innerItems_of_braced? hrow, pure_bind]

end Abacus.Positional
