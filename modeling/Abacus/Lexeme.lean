import Abacus.Decimal.Numeral
import Abacus.Value.Basic

/-!
# Lexemes

A text is cut into lexemes from the left, each as long as possible, and white space between lexemes
is dropped. Nothing but the text decides where a lexeme ends and what it is; whether a word is the
name of something or an operator is left open here.
-/

namespace Abacus

/-- The two kinds of bracket: parentheses and braces. -/
inductive Bracket
  | round | curly
  deriving DecidableEq, Repr

/-- A piece of text. -/
inductive Lexeme
  | number (value : Value)
  | word (name : String)
  | symbol (op : Operator)
  | comma
  | define
  | opening (bracket : Bracket)
  | closing (bracket : Bracket)

/-- The value that a numeral stands for: an exact integer if it is written as one and fits, a
percentage if a percent sign follows, otherwise a double. -/
def Decimal.Numeral.value (n : Numeral) (percent : Bool) : Value :=
  if percent then .percent (n.toDouble false)
  else if n.isInteger then
    match Fraction.ofInt? (ofDigits n.whole) with
    | some q => .rational q
    | none => .double (n.toDouble false)
  else .double (n.toDouble false)

namespace Lexeme

open Decimal (Numeral isDigit)

/-- White space between lexemes: space, tab, line feed, form feed and carriage return. -/
def isBlank (c : Char) : Bool :=
  c == ' ' || c == '\t' || c == '\n' || c == '\x0c' || c == '\r'

/-- A character with which a word starts. -/
def isWordStart (c : Char) : Bool := c.isAlpha || c == '_'

/-- A character with which a word goes on. -/
def isWordChar (c : Char) : Bool := c.isAlphanum || c == '_'

/-- A word at the front of a text, and the rest. -/
def word? : List Char → Option (String × List Char)
  | [] => none
  | c :: cs =>
    if isWordStart c then
      some (String.ofList (c :: cs.takeWhile isWordChar), cs.dropWhile isWordChar)
    else none

/-- A numeral at the front of a text with the percent sign that may follow it, and the rest. -/
def number? (cs : List Char) : Option (Value × List Char) :=
  match Numeral.scan? cs with
  | some (n, '%' :: rest) => some (n.value true, rest)
  | some (n, rest) => some (n.value false, rest)
  | none => none

/-- The lexeme at the front of a text, and the rest. -/
def next? : List Char → Option (Lexeme × List Char)
  | '(' :: rest => some (opening .round, rest)
  | ')' :: rest => some (closing .round, rest)
  | '\x7b' :: rest => some (opening .curly, rest)
  | '\x7d' :: rest => some (closing .curly, rest)
  | ',' :: rest => some (comma, rest)
  | ':' :: '=' :: rest => some (define, rest)
  | cs =>
    match number? cs with
    | some (v, rest) => some (number v, rest)
    | none =>
      match word? cs with
      | some (name, rest) => some (word name, rest)
      | none => (Operator.symbol? cs).map fun (op, rest) => (symbol op, rest)

end Lexeme

/-! ### The rest of a text gets shorter -/

namespace Decimal

theorem length_scanPower_le (cs : List Char) : (scanPower cs).2.length ≤ cs.length := by
  unfold scanPower
  split
  · next c rest =>
    split
    · split
      next negative rest' hsign =>
      have hrest : rest'.length ≤ rest.length := by
        split at hsign <;> cases hsign <;> simp
      split
      · exact Nat.le_refl _
      · have := (List.dropWhile_sublist isDigit (l := rest')).length_le
        simp only [List.length_cons]
        omega
    · exact Nat.le_refl _
  · exact Nat.le_refl _

theorem Numeral.length_lt_of_scan? {cs rest : List Char} {n : Numeral}
    (h : Numeral.scan? cs = some (n, rest)) : rest.length < cs.length := by
  have hsplit : (cs.takeWhile isDigit).length + (cs.dropWhile isDigit).length = cs.length := by
    rw [← List.length_append, List.takeWhile_append_dropWhile]
  unfold Numeral.scan? at h
  simp only at h
  split at h
  · next tail _ hdrop =>
    split at h
    · cases h
    · cases h
      have := length_scanPower_le (tail.dropWhile isDigit)
      have := (List.dropWhile_sublist isDigit (l := tail)).length_le
      simp only [hdrop, List.length_cons] at hsplit
      omega
  · cases h
  · next tail hdrop _ =>
    cases h
    have := length_scanPower_le (tail.dropWhile isDigit)
    have := (List.dropWhile_sublist isDigit (l := tail)).length_le
    simp only [hdrop, List.length_cons] at hsplit
    omega
  · next hdigits _ _ =>
    cases h
    have := length_scanPower_le (cs.dropWhile isDigit)
    have := List.length_pos_iff.2 hdigits
    omega

end Decimal

namespace Operator

theorem symbols_nonempty : ∀ p ∈ symbols, p.1 ≠ [] := by decide

theorem length_lt_of_symbol? {cs rest : List Char} {op : Operator}
    (h : symbol? cs = some (op, rest)) : rest.length < cs.length := by
  simp only [symbol?, Option.map_eq_some_iff] at h
  obtain ⟨p, hp, he⟩ := h
  cases he
  have hne := symbols_nonempty p (List.mem_of_find?_eq_some hp)
  have hpre : p.1.isPrefixOf cs = true := by simpa using List.find?_some hp
  have hle := (List.isPrefixOf_iff_prefix.1 hpre).length_le
  have := List.length_pos_iff.2 hne
  rw [List.length_drop]
  omega

end Operator

namespace Lexeme

theorem length_lt_of_word? {cs rest : List Char} {name : String}
    (h : word? cs = some (name, rest)) : rest.length < cs.length := by
  cases cs with
  | nil => cases h
  | cons c cs =>
    simp only [word?] at h
    split at h
    · cases h
      have := (List.dropWhile_sublist isWordChar (l := cs)).length_le
      simp only [List.length_cons]
      omega
    · cases h

theorem length_lt_of_number? {cs rest : List Char} {v : Value}
    (h : number? cs = some (v, rest)) : rest.length < cs.length := by
  unfold number? at h
  split at h
  · next hs =>
    cases h
    have := Decimal.Numeral.length_lt_of_scan? hs
    simp only [List.length_cons] at this
    omega
  · next hs =>
    cases h
    exact Decimal.Numeral.length_lt_of_scan? hs
  · cases h

/-- A lexeme takes at least one character. -/
theorem length_lt_of_next? {cs rest : List Char} {l : Lexeme} (h : next? cs = some (l, rest)) :
    rest.length < cs.length := by
  unfold next? at h
  split at h
  · cases h; exact Nat.lt_succ_self _
  · cases h; exact Nat.lt_succ_self _
  · cases h; exact Nat.lt_succ_self _
  · cases h; exact Nat.lt_succ_self _
  · cases h; exact Nat.lt_succ_self _
  · cases h; simp only [List.length_cons]; omega
  · split at h
    · next hn => cases h; exact length_lt_of_number? hn
    · split at h
      · next hw => cases h; exact length_lt_of_word? hw
      · simp only [Option.map_eq_some_iff] at h
        obtain ⟨⟨op, r⟩, hs, he⟩ := h
        cases he
        exact Operator.length_lt_of_symbol? hs

/-- All lexemes of a text. The fault shows the text from the first character that starts none. -/
def scan (cs : List Char) : Except Fault (List Lexeme) :=
  match cs with
  | [] => .ok []
  | c :: rest =>
    if isBlank c then scan rest
    else
      match h : next? (c :: rest) with
      | none => .error (.unreadable (String.ofList (c :: rest)))
      | some (l, tail) =>
        have := length_lt_of_next? h
        match scan tail with
        | .ok ls => .ok (l :: ls)
        | .error fault => .error fault
termination_by cs.length
decreasing_by
  · exact Nat.lt_succ_self _
  · assumption

end Lexeme

end Abacus
