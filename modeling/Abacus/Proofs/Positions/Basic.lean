import Abacus.Proofs.Grammar.Activations

/-!
# Positions

The reader cuts texts and tokens by patterns, which cannot miss. It can also be written by
positions: by indices, by slices between two indices, and by offsets into a text that count bytes.
Here are the accesses by position, each with what it needs to be there. A computation that reaches
for what is not there breaks off (`Careful`), and so there is no value to go on with by mistake.

For each access one lemma says that it finds what the pattern would have found, if the position is
the length of what stands in front.
-/

namespace Abacus.Positional

variable {α β : Type}

/-- Computations that may find a fault. The outer `none` says that one broke off. -/
abbrev Careful := ExceptT Fault Option

/-- Reaching for what is not there. -/
def misstep : Careful α := ExceptT.mk none

/-- Reaching for something that may be there. -/
def reach (found : Option α) : Careful α := ExceptT.lift found

@[simp] theorem reach_some (a : α) : reach (some a) = pure a := rfl

/-! ### Slices -/

/-- The members of a list from the index `start` up to the index `stop`, which is not included. -/
def slice? (xs : List α) (start stop : Nat) : Option (List α) :=
  if start ≤ stop ∧ stop ≤ xs.length then some ((xs.take stop).drop start) else none

/-- One less than a number, if there is such a number. -/
def lessOne? : Nat → Option Nat
  | 0 => none
  | n + 1 => some n

/-- A slice between two positions is what stands between them. -/
theorem slice?_append (front mid back : List α) :
    slice? (front ++ (mid ++ back)) front.length (front.length + mid.length) = some mid := by
  have hstop : front.length + mid.length = (front ++ mid).length := List.length_append.symm
  rw [slice?, if_pos (by simp), ← List.append_assoc, hstop, List.take_left, List.drop_left]

/-- A slice up to the end is what stands behind its start. -/
theorem slice?_length (front back : List α) :
    slice? (front ++ back) front.length (front ++ back).length = some back := by
  have h := slice?_append front back []
  rwa [List.append_nil, ← List.length_append] at h

/-- A slice from the start is what stands in front of its end. -/
theorem slice?_zero (front back : List α) :
    slice? (front ++ back) 0 front.length = some front := by
  have h := slice?_append [] front back
  rwa [List.length_nil, Nat.zero_add] at h

/-- The member behind `front` has its length as index. -/
theorem getElem?_append_cons (front : List α) (a : α) (back : List α) :
    (front ++ a :: back)[front.length]? = some a := by
  rw [List.getElem?_append_right (Nat.le_refl _), Nat.sub_self]
  rfl

/-! ### Offsets into texts -/

/-- How many bytes a text has. -/
def utf8Length : List Char → Nat
  | [] => 0
  | c :: cs => c.utf8Size + utf8Length cs

/-- The text from an offset on. There is none behind the end of the text and inside a character. -/
def textFrom? : List Char → Nat → Option (List Char)
  | cs, 0 => some cs
  | [], _ + 1 => none
  | c :: cs, offset + 1 =>
    if c.utf8Size ≤ offset + 1 then textFrom? cs (offset + 1 - c.utf8Size) else none

/-- The text up to an offset. -/
def textTo? : List Char → Nat → Option (List Char)
  | _, 0 => some []
  | [], _ + 1 => none
  | c :: cs, offset + 1 =>
    if c.utf8Size ≤ offset + 1 then (c :: ·) <$> textTo? cs (offset + 1 - c.utf8Size) else none

/-- The first byte of a text. -/
def firstByte? (cs : List Char) : Option UInt8 := (cs.flatMap String.utf8EncodeChar)[0]?

/-- The character that a byte stands for by itself. -/
def asChar (byte : UInt8) : Char := Char.ofNat byte.toNat

@[simp] theorem utf8Length_nil : utf8Length [] = 0 := rfl

@[simp] theorem utf8Length_cons (c : Char) (cs : List Char) :
    utf8Length (c :: cs) = c.utf8Size + utf8Length cs := rfl

@[simp] theorem utf8Length_append (cs ds : List Char) :
    utf8Length (cs ++ ds) = utf8Length cs + utf8Length ds := by
  induction cs with
  | nil => rw [List.nil_append, utf8Length_nil, Nat.zero_add]
  | cons c cs ih => rw [List.cons_append, utf8Length_cons, utf8Length_cons, ih, Nat.add_assoc]

/-- No character is without bytes. -/
theorem length_le_utf8Length (cs : List Char) : cs.length ≤ utf8Length cs := by
  induction cs with
  | nil => exact Nat.le_refl 0
  | cons c cs ih =>
    have hpos := c.utf8Size_pos
    rw [List.length_cons, utf8Length_cons]
    omega

/-- An offset that is passed by a character leaves the text behind it. -/
theorem textFrom?_cons (c : Char) (cs : List Char) (offset : Nat) :
    textFrom? (c :: cs) (c.utf8Size + offset) = textFrom? cs offset := by
  have hpos := c.utf8Size_pos
  obtain ⟨n, hn⟩ : ∃ n, c.utf8Size + offset = n + 1 := ⟨c.utf8Size + offset - 1, by omega⟩
  rw [hn, textFrom?, if_pos (by omega)]
  congr 1
  omega

theorem textTo?_cons (c : Char) (cs : List Char) (offset : Nat) :
    textTo? (c :: cs) (c.utf8Size + offset) = (c :: ·) <$> textTo? cs offset := by
  have hpos := c.utf8Size_pos
  obtain ⟨n, hn⟩ : ∃ n, c.utf8Size + offset = n + 1 := ⟨c.utf8Size + offset - 1, by omega⟩
  rw [hn, textTo?, if_pos (by omega)]
  congr 2
  omega

/-- Behind whole characters a text goes on. -/
theorem textFrom?_append (front back : List Char) :
    textFrom? (front ++ back) (utf8Length front) = some back := by
  induction front with
  | nil =>
    rw [utf8Length_nil, List.nil_append]
    cases back <;> rfl
  | cons c front ih => rw [List.cons_append, utf8Length_cons, textFrom?_cons, ih]

theorem textTo?_append (front back : List Char) :
    textTo? (front ++ back) (utf8Length front) = some front := by
  induction front with
  | nil =>
    rw [utf8Length_nil, List.nil_append]
    cases back <;> rfl
  | cons c front ih =>
    rw [List.cons_append, utf8Length_cons, textTo?_cons, ih]
    rfl

/-! ### Characters of one byte -/

theorem utf8Size_of_ascii {c : Char} (hc : c.toNat < 128) : c.utf8Size = 1 := by
  rw [Char.utf8Size_eq_one_iff, UInt32.le_iff_toNat_le]
  exact Nat.le_of_lt_succ hc

/-- The first byte of a text that starts with an ASCII character stands for the character. -/
theorem firstByte?_cons {c : Char} (hc : c.toNat < 128) (cs : List Char) :
    ∃ byte, firstByte? (c :: cs) = some byte ∧ asChar byte = c := by
  refine ⟨c.val.toUInt8, ?_, ?_⟩
  · rw [firstByte?, List.flatMap_cons, String.utf8EncodeChar_eq_singleton (utf8Size_of_ascii hc)]
    rfl
  · have hbyte : c.val.toUInt8.toNat = c.toNat :=
      calc c.val.toUInt8.toNat
          = c.toNat % 2 ^ 8 := UInt32.toNat_toUInt8 c.val
        _ = c.toNat := Nat.mod_eq_of_lt (by omega)
    rw [asChar, hbyte, Char.ofNat_toNat]

end Abacus.Positional
