import Abacus.Proofs.Text.Matching
import Abacus.Proofs.Text.Spelling

/-!
# Other spacings and other spellings

A text may be written with more or other white space between its lexemes, and with other spellings
of its operators (`Respelled`): it is read into the same tokens (`Token.ofText_respelled`). The two
texts spell the same tokens at every place on the way. A lexeme does not depend on what follows
behind white space, and the place behind an operator does not depend on how it is spelled.

The slot for the name of a unit is an exception. A word is a name there whatever it spells, so an
operator in such a slot is written with a symbol, and no word takes its place
(`Place.NoWordAsUnit`).
-/

namespace Abacus

open Lexeme (isBlank isWordStart isWordChar next? Interrupted Matches)

/-! ### Letter case -/

namespace Lexeme

/-- Only capital letters are changed, and they become small letters. -/
theorem toLower_cases (c : Char) : c.toLower = c ∨ c.isUpper ∧ c.toLower.isLower := by
  unfold Char.toLower
  split
  · next h =>
    have hupper : c.isUpper := decide_eq_true h
    have hrange := (isUpper_iff c).1 hupper
    have hsum : (c.val + ('a'.val - 'A'.val)).toNat = c.toNat + 32 := by
      rw [UInt32.toNat_add]
      exact Nat.mod_eq_of_lt (show c.toNat + 32 < 2 ^ 32 by omega)
    refine .inr ⟨hupper, (isLower_iff _).2 ?_⟩
    change 97 ≤ (c.val + ('a'.val - 'A'.val)).toNat ∧ (c.val + ('a'.val - 'A'.val)).toNat ≤ 122
    omega
  · exact .inl rfl

theorem isWordStart_of_isUpper {c : Char} (h : c.isUpper) : isWordStart c :=
  (isWordStart_iff c).2 (.inl ((isUpper_iff c).1 h))

/-- What is a name in lower case is a name. -/
theorem isName_of_map_toLower {w : List Char} (h : isName (w.map Char.toLower)) : isName w := by
  cases w with
  | nil => cases h
  | cons c cs =>
    have hstart {d : Char} (hd : isWordStart d.toLower) : isWordStart d := by
      rcases toLower_cases d with heq | ⟨hupper, -⟩
      · rwa [heq] at hd
      · exact isWordStart_of_isUpper hupper
    have hword {d : Char} (hd : isWordChar d.toLower) : isWordChar d := by
      rcases toLower_cases d with heq | ⟨hupper, -⟩
      · rwa [heq] at hd
      · exact (isWordChar_iff d).2 (.inl (isWordStart_of_isUpper hupper))
    simp only [isName, List.map_cons, Bool.and_eq_true, List.all_map, List.all_eq_true,
      Function.comp_apply] at h ⊢
    exact ⟨hstart h.1, fun d hd => hword (h.2 d hd)⟩

/-- What has no letter in lower case has none. -/
theorem map_toLower_eq_self {w : List Char} (h : ∀ c ∈ w.map Char.toLower, c.isLower = false) :
    w.map Char.toLower = w := by
  rw [List.map_congr_left (g := id), List.map_id]
  intro c hc
  refine (toLower_cases c).resolve_right fun hlower => ?_
  rw [h _ (List.mem_map_of_mem hc)] at hlower
  cases hlower.2

end Lexeme

/-! ### Spellings of operators -/

namespace Operator

variable {o : Operator} {w : List Char}

/-- A text spells an operator, in some letter case. -/
def IsSpelledBy (o : Operator) (w : List Char) : Prop :=
  String.ofList (w.map Char.toLower) ∈ o.spellings

instance (o : Operator) (w : List Char) : Decidable (o.IsSpelledBy w) :=
  inferInstanceAs (Decidable (_ ∈ _))

/-- What is written for an operator is a name or one of the symbols. -/
theorem isName_or_mem_symbols (h : o.IsSpelledBy w) : isName w ∨ (w, o) ∈ symbols := by
  have hspellings : ∀ s ∈ o.spellings, isName s.toList ∨ (s.toList, o) ∈ symbols := by
    cases o <;> decide
  have hsymbols : ∀ p ∈ symbols, ∀ c ∈ p.1, c.isLower = false :=
    forall_mem_symbol (by simp)
  have hlower := hspellings _ h
  rw [String.toList_ofList] at hlower
  refine hlower.imp Lexeme.isName_of_map_toLower fun hmem => ?_
  rwa [← Lexeme.map_toLower_eq_self (hsymbols _ hmem)]

theorem toLower_ofList (w : List Char) :
    (String.ofList w).toLower = String.ofList (w.map Char.toLower) := by
  show String.map Char.toLower (String.ofList w) = _
  rw [← String.toList_inj, String.toList_map, String.toList_ofList, String.toList_ofList]

/-- No spelling belongs to two operators. -/
theorem find?_of_isSpelledBy (h : o.IsSpelledBy w) : find? (String.ofList w) = some o := by
  have hspellings : ∀ s ∈ o.spellings, all.find? (fun o' => o'.spellings.contains s) = some o := by
    cases o <;> decide
  rw [find?, toLower_ofList]
  exact hspellings _ h

/-- What is found is the operator that is spelled. -/
theorem find?_eq_some_iff {word : String} : find? word = some o ↔ o.IsSpelledBy word.toList := by
  constructor
  · intro h
    rw [← String.ofList_toList (s := word), find?, toLower_ofList] at h
    have hspells := List.find?_some h
    exact List.contains_iff_mem.1 hspells
  · intro h
    rw [← find?_of_isSpelledBy h, String.ofList_toList]

end Operator

namespace Place

/-- No word is written where the name of a unit can stand. -/
def NoWordAsUnit (place : Place) (w : List Char) : Prop :=
  Token.inUnitSlot place.groups → ¬ isName w

end Place

/-- In front of white space and at the end, what spells an operator is read as the operator. -/
theorem Operator.exists_next?_of_isSpelledBy {known : List String} {place : Place} {o : Operator}
    {w rest : List Char} (h : o.IsSpelledBy w) (hknown : String.ofList w ∉ known)
    (hunit : place.NoWordAsUnit w) (hrest : ∀ c ∈ rest.head?, isBlank c) :
    ∃ l, next? (w ++ rest) = some (l, rest) ∧
      Token.ofLexeme known (Token.inUnitSlot place.groups) l = .op o := by
  -- nothing that starts behind the spelling continues it
  have hinterrupted : Interrupted [] rest := .here hrest
  rcases isName_or_mem_symbols h with hname | hsymbol
  · have hslot : Token.inUnitSlot place.groups = false :=
      Bool.eq_false_iff.2 fun hu => hunit hu hname
    have hword : Matches (.word (String.ofList w)) w [] := .word hname (by simp)
    refine ⟨_, (hword.interrupted hinterrupted).next?_append, ?_⟩
    simp [Token.ofLexeme, hslot, hknown, find?_of_isSpelledBy h]
  · have hmatch : Matches (.symbol o) w [] :=
      .symbol hsymbol fun p _ hpre => by simpa using hpre.length_le
    exact ⟨_, (hmatch.interrupted hinterrupted).next?_append, rfl⟩

/-! ### Respelled texts -/

/-- A text is written with other white space and with other spellings of its operators. Where
spellings are allowed to stand is left open. -/
inductive Respelled (known : List String) (allowed : Place → List Char → Prop) :
    Place → List Char → List Char → Prop
  | nil (place : Place) : Respelled known allowed place [] []
  /-- White space may be put between two lexemes, and it may be changed where there is some. -/
  | space {place : Place} {gap gap' text text' : List Char} (hgap : ∀ c ∈ gap, isBlank c)
      (hgap' : ∀ c ∈ gap', isBlank c) (hsome : gap ≠ [] → gap' ≠ [])
      (h : Respelled known allowed place text text') :
      Respelled known allowed place (gap ++ text) (gap' ++ text')
  /-- A lexeme may be kept. -/
  | lexeme {place : Place} {w rest rest' : List Char} {l : Lexeme}
      (hl : next? (w ++ rest) = some (l, rest))
      (h : Respelled known allowed
        (place.after (Token.ofLexeme known (Token.inUnitSlot place.groups) l)) rest rest') :
      Respelled known allowed place (w ++ rest) (w ++ rest')
  /-- What is read as an operator may be replaced, if there is white space around what replaces
  it. -/
  | operator {place : Place} {gap gap' w w' rest rest' : List Char} {l : Lexeme} {o : Operator}
      (hgap : ∀ c ∈ gap, isBlank c) (hgap' : ∀ c ∈ gap', isBlank c) (hne : gap' ≠ [])
      (hl : next? (w ++ rest) = some (l, rest))
      (ho : Token.ofLexeme known (Token.inUnitSlot place.groups) l = .op o)
      (hspelled : o.IsSpelledBy w') (hknown : String.ofList w' ∉ known)
      (hallowed : allowed place w') (hrest : ∀ c ∈ rest'.head?, isBlank c)
      (h : Respelled known allowed (place.after (.op o)) rest rest') :
      Respelled known allowed place (gap ++ (w ++ rest)) (gap' ++ (w' ++ rest'))

namespace Respelled

variable {known : List String} {allowed : Place → List Char → Prop} {place : Place}
  {text text' : List Char}

/-- Every text that is cut into lexemes may be kept as it is. -/
theorem refl_of_scans {ls : List Lexeme} (h : Lexeme.Scans text ls) (place : Place) :
    Respelled known allowed place text text := by
  induction h generalizing place with
  | nil => exact .nil place
  | @blank c rest _ hc _ ih =>
    have hgap : ∀ d ∈ [c], isBlank d := by simpa using hc
    exact .space hgap hgap id (ih place)
  | lexeme hnext _ ih =>
    obtain ⟨w, rfl, -⟩ := Lexeme.exists_of_next? hnext
    exact .lexeme hnext (ih _)

/-- A respelled text goes on like the text, until white space comes. -/
theorem interrupted (h : Respelled known allowed place text text') : Interrupted text text' := by
  induction h with
  | nil => exact .here (by simp)
  | @space _ gap gap' _ _ hgap hgap' hsome _ ih =>
    cases gap' with
    | nil =>
      obtain rfl : gap = [] := by
        by_contra hne
        exact hsome hne rfl
      exact ih
    | cons c gap' => exact .here (by simpa using hgap' c List.mem_cons_self)
  | lexeme _ _ ih => exact ih.append _
  | @operator _ _ gap' _ _ _ _ _ _ _ hgap' hne =>
    obtain ⟨c, cs, rfl⟩ := List.exists_cons_of_ne_nil hne
    exact .here (by simpa using hgap' c List.mem_cons_self)

/-- The two texts spell the same tokens. -/
theorem exists_spells (h : Respelled known Place.NoWordAsUnit place text text') :
    ∃ ts, Spells known place text ts ∧ Spells known place text' ts := by
  induction h with
  | nil place => exact ⟨[], .nil place, .nil place⟩
  | space hgap hgap' _ _ ih =>
    obtain ⟨ts, h, h'⟩ := ih
    exact ⟨ts, h.blanks hgap, h'.blanks hgap'⟩
  | lexeme hl hrest ih =>
    obtain ⟨ts, h, h'⟩ := ih
    exact ⟨_ :: ts, .lexeme hl rfl h, .lexeme (hrest.interrupted.next?_append hl) rfl h'⟩
  | operator hgap hgap' _ hl ho hspelled hknown hunit hends _ ih =>
    obtain ⟨ts, h, h'⟩ := ih
    obtain ⟨l', hl', ho'⟩ := Operator.exists_next?_of_isSpelledBy hspelled hknown hunit hends
    exact ⟨_ :: ts, (Spells.lexeme hl ho h).blanks hgap, (Spells.lexeme hl' ho' h').blanks hgap'⟩

end Respelled

/-- **Spacing and spelling do not matter.** A text with other white space between its lexemes and
with other spellings of its operators has the same tokens, or the same fault is found in them. -/
theorem Token.ofText_respelled {known : List String} {text text' : List Char}
    (h : Respelled known Place.NoWordAsUnit ⟨[], false⟩ text text') :
    ofText text' known = ofText text known := by
  obtain ⟨ts, h, h'⟩ := h.exists_spells
  rw [h.ofText_eq, h'.ofText_eq]

/-- A space in front of `e` changes nothing, since the `e` is not read with the number anyway, and
the commas of a conversion are counted however its operator is spelled. -/
theorem Token.ofText_respelled_conversion :
    Respelled [] Place.NoWordAsUnit ⟨[], false⟩ "to(2e,m)".toList " CONVERT (2 e\t,m)".toList ∧
      ofText " CONVERT (2 e\t,m)".toList [] = ofText "to(2e,m)".toList [] := by
  have hnone : ∀ c ∈ [], isBlank c := List.forall_mem_nil _
  have hspace : ∀ c ∈ [' '], isBlank c := by simp [isBlank]
  have htab : ∀ c ∈ ['\t'], isBlank c := by simp [isBlank]
  have htail : Lexeme.Scans [',', 'm', ')'] [.comma, .word "m", .closing .round] :=
    .lexeme rfl (.lexeme rfl (.lexeme rfl .nil))
  have hbody (place : Place) : Respelled [] Place.NoWordAsUnit place
      ['(', '2', 'e', ',', 'm', ')'] [' ', '(', '2', ' ', 'e', '\t', ',', 'm', ')'] := by
    apply Respelled.space hnone hspace (by simp)
    apply @Respelled.lexeme _ _ _ ['('] _ _ _ rfl
    apply @Respelled.lexeme _ _ _ ['2'] _ _ _ rfl
    apply Respelled.space hnone hspace (by simp)
    apply @Respelled.lexeme _ _ _ ['e'] _ _ _ rfl
    apply Respelled.space hnone htab (by simp)
    exact Respelled.refl_of_scans htail _
  have h : Respelled [] Place.NoWordAsUnit ⟨[], false⟩ "to(2e,m)".toList
      " CONVERT (2 e\t,m)".toList := by
    apply @Respelled.operator _ _ _ [] [' '] ['t', 'o'] ['C', 'O', 'N', 'V', 'E', 'R', 'T']
      ['(', '2', 'e', ',', 'm', ')'] [' ', '(', '2', ' ', 'e', '\t', ',', 'm', ')'] _ .conversion
      hnone hspace (by simp) rfl
    · with_unfolding_all rfl
    · decide
    · simp
    · simp [Place.NoWordAsUnit, Token.inUnitSlot]
    · simp [isBlank]
    · exact hbody _
  exact ⟨h, ofText_respelled h⟩

/-- In the slot of a unit, the word `minus` is not read as the operator that the symbol is. -/
theorem Token.ofText_ne_of_word_as_unit :
    Respelled [] (fun _ _ => True) ⟨[], false⟩ "convert(x, -deg, rad)".toList
        "convert(x, minus deg, rad)".toList ∧
      ofText "convert(x, minus deg, rad)".toList [] ≠ ofText "convert(x, -deg, rad)".toList [] := by
  have hnone : ∀ c ∈ [], isBlank c := List.forall_mem_nil _
  have hspace : ∀ c ∈ [' '], isBlank c := by simp [isBlank]
  have htail : Lexeme.Scans ['d', 'e', 'g', ',', ' ', 'r', 'a', 'd', ')']
      [.word "deg", .comma, .word "rad", .closing .round] :=
    .lexeme rfl (.lexeme rfl (.blank rfl (.lexeme rfl (.lexeme rfl .nil))))
  constructor
  · apply @Respelled.lexeme _ _ _ ['c', 'o', 'n', 'v', 'e', 'r', 't'] _ _ _ rfl
    apply @Respelled.lexeme _ _ _ ['('] _ _ _ rfl
    apply @Respelled.lexeme _ _ _ ['x'] _ _ _ rfl
    apply @Respelled.lexeme _ _ _ [','] _ _ _ rfl
    apply @Respelled.operator _ _ _ [' '] [' '] ['-'] ['m', 'i', 'n', 'u', 's']
      ['d', 'e', 'g', ',', ' ', 'r', 'a', 'd', ')']
      [' ', 'd', 'e', 'g', ',', ' ', 'r', 'a', 'd', ')'] _ .minus hspace hspace (by simp) rfl rfl
    · decide
    · simp
    · trivial
    · simp [isBlank]
    · exact Respelled.space hnone hspace (by simp) (Respelled.refl_of_scans htail _)
  · intro heq
    have hread : (ofText "convert(x, minus deg, rad)".toList []).toBool =
        (ofText "convert(x, -deg, rad)".toList []).toBool := by rw [heq]
    revert hread
    decide +kernel

end Abacus
