import Abacus.Proofs.Outcome
import Abacus.Term.Statement

/-!
# Where lexemes end

A numeral, a word or a symbol at the front of a text is one lexeme if what follows does not continue
it. Nothing continues a numeral or a word in front of a character that `continuesOperand` rejects,
and nothing continues a symbol in front of a character with which an operand starts.

What is scanned from a text is cut off its front one lexeme at a time (`Lexeme.Scans`).
-/

namespace Abacus

namespace Lexeme

open Decimal (isDigit Numeral)

/-! ### Characters -/

theorem isDigit_iff (c : Char) : isDigit c ↔ 48 ≤ c.toNat ∧ c.toNat ≤ 57 := by
  simp only [isDigit, Bool.and_eq_true, decide_eq_true_eq]
  exact Iff.rfl

theorem isUpper_iff (c : Char) : c.isUpper ↔ 65 ≤ c.toNat ∧ c.toNat ≤ 90 :=
  decide_eq_true_iff

theorem isLower_iff (c : Char) : c.isLower ↔ 97 ≤ c.toNat ∧ c.toNat ≤ 122 :=
  Bool.and_eq_true_iff.trans (and_congr decide_eq_true_iff decide_eq_true_iff)

theorem isWordStart_iff (c : Char) : isWordStart c ↔
    (65 ≤ c.toNat ∧ c.toNat ≤ 90) ∨ (97 ≤ c.toNat ∧ c.toNat ≤ 122) ∨ c = '_' :=
  calc isWordStart c
      ↔ (c.isUpper ∨ c.isLower) ∨ c = '_' :=
        Bool.or_eq_true_iff.trans (or_congr Bool.or_eq_true_iff beq_iff_eq)
    _ ↔ _ := by rw [isUpper_iff, isLower_iff, or_assoc]

theorem isWordChar_iff (c : Char) : isWordChar c ↔ isWordStart c ∨ isDigit c := by
  simp only [isWordChar, isWordStart, isDigit, Char.isAlphanum, Char.isDigit, Bool.or_eq_true,
    Bool.and_eq_true, decide_eq_true_eq, or_assoc]
  exact or_congr_right or_comm

/-- The codes of word characters: digits, capital letters, the underscore and small letters. -/
theorem range_of_isWordChar {c : Char} (h : isWordChar c) :
    (48 ≤ c.toNat ∧ c.toNat ≤ 57) ∨ (65 ≤ c.toNat ∧ c.toNat ≤ 90) ∨ c.toNat = 95 ∨
      (97 ≤ c.toNat ∧ c.toNat ≤ 122) := by
  rcases (isWordChar_iff c).1 h with h | h
  · rcases (isWordStart_iff c).1 h with h | h | rfl
    · exact .inr (.inl h)
    · exact .inr (.inr (.inr h))
    · exact .inr (.inr (.inl rfl))
  · exact .inl ((isDigit_iff c).1 h)

theorem isWordChar_of_isDigit {c : Char} (h : isDigit c) : isWordChar c :=
  (isWordChar_iff c).2 (.inr h)

/-- No word starts with a digit. -/
theorem not_isDigit_of_isWordStart {c : Char} (h : isWordStart c) : ¬ isDigit c := by
  rw [isDigit_iff]
  rcases (isWordStart_iff c).1 h with h | h | rfl
  · omega
  · omega
  · decide

/-- A character that would continue a numeral or a word. -/
def continuesOperand (c : Char) : Bool := isWordChar c || c == '.' || c == '%'

/-- A character with which the text of an operand starts. -/
def startsOperand (c : Char) : Bool :=
  isWordChar c || c == '(' || c == '\x7b' || c == '+' || c == '-'

/-- A text that does not continue a numeral or a word in front of it. -/
def EndsOperand (rest : List Char) : Prop := ∀ c ∈ rest.head?, continuesOperand c = false

/-- A text that starts like an operand. -/
def StartsOperand (text : List Char) : Prop := ∃ c ∈ text.head?, startsOperand c

theorem endsOperand_nil : EndsOperand [] := nofun

theorem endsOperand_cons {c : Char} {rest : List Char} :
    EndsOperand (c :: rest) ↔ continuesOperand c = false := by
  simp [EndsOperand]

/-- What follows the text of an operand does not change how it starts. -/
theorem StartsOperand.append {text : List Char} (h : StartsOperand text) (rest : List Char) :
    StartsOperand (text ++ rest) := by
  obtain ⟨c, hc, hstart⟩ := h
  refine ⟨c, ?_, hstart⟩
  rw [List.head?_append, hc]
  rfl

/-- Characters of one kind go on until a text that starts with one of another kind. -/
theorem span_append {p : Char → Bool} {cs rest : List Char} (hcs : ∀ c ∈ cs, p c)
    (hrest : ∀ c ∈ rest.head?, p c = false) :
    (cs ++ rest).takeWhile p = cs ∧ (cs ++ rest).dropWhile p = rest := by
  rw [List.takeWhile_append_of_pos hcs, List.dropWhile_append_of_pos hcs]
  cases rest with
  | nil => simp
  | cons c rest =>
    have hc := hrest c rfl
    simp [hc]

/-! ### Numerals and words -/

/-- A character that is a lexeme by itself, or starts `:=`. -/
def isPunctuation (c : Char) : Bool :=
  c == '(' || c == ')' || c == '\x7b' || c == '\x7d' || c == ',' || c == ':'

/-- What is no punctuation is tried as a numeral, as a word and as a symbol. -/
theorem next?_of_not_isPunctuation {c : Char} (h : isPunctuation c = false) (cs : List Char) :
    next? (c :: cs) =
      match number? (c :: cs) with
      | some (v, rest) => some (number v, rest)
      | none =>
        match word? (c :: cs) with
        | some (name, rest) => some (word name, rest)
        | none => (Operator.symbol? (c :: cs)).map fun (op, rest) => (symbol op, rest) := by
  unfold next?
  split <;> first | rfl | simp_all [isPunctuation]

theorem not_isPunctuation_of_isWordChar {c : Char} (h : isWordChar c) :
    isPunctuation c = false := by
  rw [Bool.eq_false_iff]
  intro hp
  simp only [isPunctuation, Bool.or_eq_true, beq_iff_eq] at hp
  rcases hp with ((((rfl | rfl) | rfl) | rfl) | rfl) | rfl <;> simp [isWordChar] at h

theorem isWordChar_eq_false {c : Char} (h : continuesOperand c = false) : isWordChar c = false := by
  simp only [continuesOperand, Bool.or_eq_false_iff] at h
  exact h.1.1

theorem isDigit_eq_false {c : Char} (h : continuesOperand c = false) : isDigit c = false := by
  rw [Bool.eq_false_iff]
  intro hd
  have hword := isWordChar_eq_false h
  rw [(isWordChar_iff c).2 (.inr hd)] at hword
  cases hword

/-- The digits of a natural number are decimal. -/
theorem isDigit_of_mem_digitChars {n : Nat} {d : Char} (hd : d ∈ Decimal.digitChars n) :
    isDigit d := by
  have hd : d.isDigit := Nat.isDigit_of_mem_toDigits (by decide) (by decide) hd
  simp only [Char.isDigit, Bool.and_eq_true, decide_eq_true_eq] at hd
  simp only [isDigit, Bool.and_eq_true, decide_eq_true_eq]
  exact hd

/-- A numeral starts with a digit or a point. -/
theorem number?_eq_none {c : Char} (hdigit : isDigit c = false) (hpoint : c ≠ '.')
    (cs : List Char) : number? (c :: cs) = none := by
  have hscan : Numeral.scan? (c :: cs) = none := by
    simp only [Numeral.scan?, List.takeWhile_cons, hdigit, List.dropWhile_cons]
    split <;> simp_all
  rw [number?, hscan]

/-- A name starts like a word and goes on like one. -/
theorem exists_of_isName {x : List Char} (hx : isName x) :
    ∃ c cs, x = c :: cs ∧ isWordStart c ∧ ∀ d ∈ x, isWordChar d := by
  cases x with
  | nil => cases hx
  | cons c cs =>
    simp only [isName, Bool.and_eq_true, List.all_eq_true] at hx
    obtain ⟨hc, hcs⟩ := hx
    refine ⟨c, cs, rfl, hc, fun d hd => ?_⟩
    rcases List.mem_cons.1 hd with rfl | hd
    · exact (isWordChar_iff d).2 (.inl hc)
    · exact hcs d hd

theorem isWordChar_of_isName {x : List Char} (hx : isName x) {c : Char} (hc : c ∈ x) :
    isWordChar c := by
  obtain ⟨-, -, -, -, hword⟩ := exists_of_isName hx
  exact hword c hc

/-- A name is a word if nothing behind it continues it. -/
theorem next?_word {x rest : List Char} (hx : isName x)
    (hrest : ∀ c ∈ rest.head?, isWordChar c = false) :
    next? (x ++ rest) = some (word (String.ofList x), rest) := by
  obtain ⟨c, cs, rfl, hstart, hword⟩ := exists_of_isName hx
  have hspan := span_append (fun d hd => hword d (List.mem_cons_of_mem c hd)) hrest
  have hpunctuation := not_isPunctuation_of_isWordChar (hword c List.mem_cons_self)
  have hpoint : c ≠ '.' := by
    rintro rfl
    cases hstart
  rw [List.cons_append, next?_of_not_isPunctuation hpunctuation,
    number?_eq_none (Bool.eq_false_iff.2 (not_isDigit_of_isWordStart hstart)) hpoint]
  simp only [word?, hstart, if_true, hspan]

theorem next?_name {x rest : List Char} (hx : isName x) (hrest : EndsOperand rest) :
    next? (x ++ rest) = some (word (String.ofList x), rest) :=
  next?_word hx fun c hc => isWordChar_eq_false (hrest c hc)

/-- What is no punctuation and starts no numeral and no word can only be a symbol. -/
theorem next?_eq_symbol? {c : Char} (hpunctuation : isPunctuation c = false)
    (hc : continuesOperand c = false) (cs : List Char) :
    next? (c :: cs) = (Operator.symbol? (c :: cs)).map fun (op, rest) => (symbol op, rest) := by
  have hpoint : c ≠ '.' := by
    rintro rfl
    cases hc
  have hword : isWordStart c = false := by
    rw [Bool.eq_false_iff]
    intro h
    have hfalse := isWordChar_eq_false hc
    rw [(isWordChar_iff c).2 (.inl h)] at hfalse
    cases hfalse
  rw [next?_of_not_isPunctuation hpunctuation, number?_eq_none (isDigit_eq_false hc) hpoint]
  simp [word?, hword]

end Lexeme

/-! ### Symbols -/

namespace Operator

/-- The operator is written with letters. -/
def isWord (o : Operator) : Bool := o.canonical.toList.head?.any Char.isAlpha

theorem symbols_eq : symbols =
    [(['*', '*'], power), (['=', '='], equal), (['!', '='], unequal), (['<', '>'], unequal),
      (['<', '='], lessEqual), (['>', '='], greaterEqual), (['&', '&'], and), (['|', '|'], or),
      (['+'], plus), (['-'], minus), (['*'], times), (['/'], divide), (['^'], power),
      (['<'], less), (['>'], greater), (['!'], not)] := rfl

/-- The canonical spelling of a word is a name. -/
theorem isName_canonical {o : Operator} (ho : o.isWord) : isName o.canonical.toList := by
  revert ho
  cases o <;> decide

/-- No operator has the canonical spelling of another. -/
theorem find?_canonical (o : Operator) : find? o.canonical = some o := by
  cases o <;> decide +kernel

/-- The operators that are written with symbols. -/
theorem mem_of_isWord_eq_false {o : Operator} (ho : o.isWord = false) :
    o ∈ [plus, minus, times, divide, power, equal, unequal, less, lessEqual, greater,
      greaterEqual] := by
  revert ho
  cases o <;> decide

/-- The symbol of an operator is not continued by an operand behind it. -/
theorem symbol?_canonical {o : Operator} (ho : o.isWord = false) {text : List Char}
    (htext : Lexeme.StartsOperand text) :
    symbol? (o.canonical.toList ++ text) = some (o, text) := by
  obtain ⟨c, hc, hstart⟩ := htext
  obtain ⟨cs, rfl⟩ : ∃ cs, text = c :: cs := by
    cases text with
    | nil => cases hc
    | cons d cs =>
      obtain rfl : d = c := by simpa using hc
      exact ⟨cs, rfl⟩
  -- these are the second characters of the symbols that continue another one
  obtain ⟨h₁, h₂, h₃⟩ : c ≠ '*' ∧ c ≠ '=' ∧ c ≠ '>' := by
    refine ⟨?_, ?_, ?_⟩ <;> rintro rfl <;>
      simp [Lexeme.startsOperand, Lexeme.isWordChar] at hstart
  rw [symbol?, symbols_eq]
  have hmem := mem_of_isWord_eq_false ho
  simp only [List.mem_cons, List.not_mem_nil, or_false] at hmem
  rcases hmem with rfl | rfl | rfl | rfl | rfl | rfl | rfl | rfl | rfl | rfl | rfl <;>
    simp [canonical, spellings, List.isPrefixOf, h₁.symm, h₂.symm, h₃.symm]

end Operator

namespace Lexeme

/-- The symbol of an operator in front of an operand. -/
theorem next?_symbol {o : Operator} (ho : o.isWord = false) {text : List Char}
    (htext : StartsOperand text) :
    next? (o.canonical.toList ++ text) = some (symbol o, text) := by
  have hsymbol := Operator.symbol?_canonical ho htext
  have hmem := Operator.mem_of_isWord_eq_false ho
  simp only [List.mem_cons, List.not_mem_nil, or_false] at hmem
  obtain ⟨c, cs, hcs, hpunctuation, hc⟩ : ∃ c cs, o.canonical.toList = c :: cs ∧
      isPunctuation c = false ∧ continuesOperand c = false := by
    rcases hmem with rfl | rfl | rfl | rfl | rfl | rfl | rfl | rfl | rfl | rfl | rfl <;>
      exact ⟨_, _, rfl, rfl, rfl⟩
  rw [hcs, List.cons_append] at hsymbol ⊢
  rw [next?_eq_symbol? hpunctuation hc, hsymbol]
  rfl

/-- White space is neither punctuation nor part of an operand. -/
theorem eq_false_of_isBlank {c : Char} (h : isBlank c) :
    isPunctuation c = false ∧ continuesOperand c = false := by
  simp only [isBlank, Bool.or_eq_true, beq_iff_eq] at h
  rcases h with (((rfl | rfl) | rfl) | rfl) | rfl <;> exact ⟨rfl, rfl⟩

theorem isBlank_eq_false_of_isWordChar {c : Char} (h : isWordChar c) : isBlank c = false := by
  rw [Bool.eq_false_iff]
  intro hblank
  rw [isWordChar_eq_false (eq_false_of_isBlank hblank).2] at h
  cases h

/-- White space starts no lexeme. -/
theorem next?_eq_none_of_isBlank {c : Char} (h : isBlank c) (cs : List Char) :
    next? (c :: cs) = none := by
  obtain ⟨hpunctuation, hc⟩ := eq_false_of_isBlank h
  -- no symbol starts with a blank either
  rw [next?_eq_symbol? hpunctuation hc, Operator.symbol?, Operator.symbols_eq]
  simp only [isBlank, Bool.or_eq_true, beq_iff_eq] at h
  rcases h with (((rfl | rfl) | rfl) | rfl) | rfl <;> simp [List.isPrefixOf]

/-! ### Texts as lexemes -/

/-- The lexemes of a text that starts with one are this and those behind it. -/
theorem scan_of_next? {cs tail : List Char} {l : Lexeme} (h : next? cs = some (l, tail)) :
    scan cs = (l :: ·) <$> scan tail := by
  cases cs with
  | nil => exact absurd (length_lt_of_next? h) (Nat.not_lt_zero _)
  | cons c cs =>
    -- white space would not have given a lexeme
    have hblank : ¬ isBlank c := by
      intro hc
      rw [next?_eq_none_of_isBlank hc] at h
      cases h
    rw [scan, if_neg hblank]
    split
    · next hnone =>
      rw [h] at hnone
      cases hnone
    · next hsome =>
      rw [h] at hsome
      cases hsome
      cases scan tail <;> rfl

theorem scan_of_next?_eq_none {c : Char} {cs : List Char} (hc : ¬ isBlank c)
    (h : next? (c :: cs) = none) :
    scan (c :: cs) = .error (.unreadable (String.ofList (c :: cs))) := by
  rw [scan, if_neg hc]
  split
  · rfl
  · next hsome =>
    rw [h] at hsome
    cases hsome

/-- A text is cut into lexemes, with blanks in front of some of them. -/
inductive Scans : List Char → List Lexeme → Prop
  | nil : Scans [] []
  | blank {c : Char} {rest : List Char} {ls : List Lexeme} (hc : isBlank c) (h : Scans rest ls) :
      Scans (c :: rest) ls
  | lexeme {cs tail : List Char} {l : Lexeme} {ls : List Lexeme} (hnext : next? cs = some (l, tail))
      (h : Scans tail ls) : Scans cs (l :: ls)

theorem scans_of_scan {cs : List Char} {ls : List Lexeme} (h : scan cs = .ok ls) :
    Scans cs ls := by
  induction cs using scan.induct generalizing ls with
  | case1 =>
    rw [scan] at h
    cases h
    exact .nil
  | case2 c rest hc ih =>
    rw [scan, if_pos hc] at h
    exact .blank hc (ih h)
  | case3 c rest hc hnone =>
    rw [scan_of_next?_eq_none hc hnone] at h
    cases h
  | _ c rest hc l tail hnext _ _ _ ih =>
    rw [scan_of_next? hnext] at h
    obtain ⟨ls', hscan, rfl⟩ := map_eq_ok_iff.1 h
    exact .lexeme hnext (ih hscan)

theorem scan_of_scans {cs : List Char} {ls : List Lexeme} (h : Scans cs ls) :
    scan cs = .ok ls := by
  induction h with
  | nil => rw [scan]
  | blank hc _ ih => rw [scan, if_pos hc, ih]
  | lexeme hnext _ ih =>
    rw [scan_of_next? hnext, ih]
    rfl

end Lexeme

/-- The tokens of a text are those of the lexemes that it is cut into, and they pass the check. -/
theorem Token.exists_of_ofText {text : List Char} {known : List String} {ts : List Token}
    (h : ofText text known = .ok ts) :
    ∃ ls, Lexeme.Scans text ls ∧ check ts = .ok () ∧ ts = ofLexemes known ls := by
  simp only [ofText] at h
  split at h
  · cases h
  · obtain ⟨ls, hscan, h⟩ := bind_eq_ok_iff.1 h
    obtain ⟨_, hcheck, h⟩ := bind_eq_ok_iff.1 h
    cases h
    exact ⟨ls, Lexeme.scans_of_scan hscan, hcheck, rfl⟩

end Abacus
