import Abacus.Proofs.Positions.Basic
import Abacus.Proofs.Text.Matching

/-!
# Tokens by positions

A text is cut into tokens from an offset that moves over the text: the text from the offset on is
cut out, its first byte is looked at, and the offset is moved by the length of what was matched. The
text that was matched for a number is read once more by itself (`parseNumber`).

The text is ASCII by then, so each character is one byte and the offset stands between characters.
What is matched for a number is read by itself as it is read at the front of a text
(`Lexeme.Matches`), since nothing follows that could continue it.
-/

namespace Abacus.Positional

open Lexeme (Matches isBlank next? number? word?)
open Decimal (Numeral isDigit ofDigits)
open Activation (answer answer_bind)

/-! ### One token -/

/-- The text that is taken off the front of a text. -/
def matched? {α : Type} (read : List Char → Option (α × List Char)) (cs : List Char) :
    Option (List Char) :=
  (read cs).map fun taken => cs.take (cs.length - taken.2.length)

/-- The double that a whole text names. That it names none is a misstep. -/
def toDouble (w : List Char) : Careful Float := reach (Decimal.parseDouble? (String.ofList w))

/-- The integer that a whole text names, if it fits. -/
def toInt? (w : List Char) : Option Fraction :=
  if w ≠ [] ∧ w.all isDigit then Fraction.ofInt? (ofDigits w) else none

/-- The number that a matched text writes. -/
def parseNumber (w : List Char) : Careful Value :=
  if w.getLast? = some '%' then .percent <$> toDouble w.dropLast
  else if w.any fun c => c == '.' || c == 'e' || c == 'E' then .double <$> toDouble w
  else
    match toInt? w with
    | some q => return .rational q
    | none => .double <$> toDouble w

/-- The operator with a spelling, found by its index among all operators. -/
def spelled? (word : String) : Careful (Option Operator) :=
  match Operator.all.findIdx? fun o => o.spellings.contains word.toLower with
  | none => return none
  | some i => some <$> reach Operator.all[i]?

/-- The token of a word. -/
def wordToken (known : List String) (isUnit : Bool) (word : String) : Careful Token :=
  if isUnit || known.contains word then return .name word
  else do
    match ← spelled? word with
    | some o => return .op o
    | none => return .name word

/-- The token of a symbol. That no operator is spelled so is a misstep. -/
def symbolToken (word : String) : Careful Token := do
  match ← spelled? word with
  | some o => return .op o
  | none => misstep

/-- The number, word or symbol at the front of a text, and how many bytes it has. -/
def lexOther (known : List String) (isUnit : Bool) (cs : List Char) : Careful (Token × Nat) :=
  match matched? number? cs with
  | some w => return (.number (← parseNumber w), utf8Length w)
  | none =>
    match matched? word? cs with
    | some w => return (← wordToken known isUnit (String.ofList w), utf8Length w)
    | none =>
      match Operator.symbols.find? (·.1.isPrefixOf cs) with
      | some (w, _) => return (← symbolToken (String.ofList w), utf8Length w)
      | none => throw (.unreadable (String.ofList cs))

/-- The token at the front of a text that starts with `c`, and how many bytes it has. -/
def lex (known : List String) (isUnit : Bool) (c : Char) (cs : List Char) : Careful (Token × Nat) :=
  match c with
  | '(' => return (.opening .round, 1)
  | ')' => return (.closing .round, 1)
  | '\x7b' => return (.opening .curly, 1)
  | '\x7d' => return (.closing .curly, 1)
  | ',' => return (.comma, 1)
  | _ =>
    if [':', '='].isPrefixOf cs then return (.define, 2) else lexOther known isUnit cs

/-! ### All tokens -/

/-- The tokens of a text from an offset on, behind tokens that were read and leave some groups open.
Each step moves the offset. -/
def tokensFrom (known : List String) (text : List Char) :
    (steps : Nat) → List OpenGroup → List Token → (offset : Nat) → Careful (List Token)
  | 0, _, _, _ => misstep
  | steps + 1, groups, read, offset =>
    if offset < utf8Length text then do
      let cs ← reach (textFrom? text offset)
      let byte ← reach (firstByte? cs)
      if isBlank (asChar byte) then tokensFrom known text steps groups read (offset + 1)
      else do
        let (t, length) ← lex known (Token.inUnitSlot groups) (asChar byte) cs
        let converts := read.getLast?.any Token.isConversion
        tokensFrom known text steps (Token.groupsAfter groups converts t) (read ++ [t])
          (offset + length)
    else return read

/-- All slices of two neighbours. -/
def windows : List Token → List (List Token)
  | left :: right :: rest => [left, right] :: windows (right :: rest)
  | _ => []

/-- Checks all neighbours. -/
def checkWindows : List (List Token) → Careful Unit
  | [] => return
  | pair :: pairs => do
    let left ← reach pair[0]?
    let right ← reach pair[1]?
    match Token.misplacement? left right with
    | some m => throw (.misplaced m)
    | none => checkWindows pairs

/-- Checks the tokens of an expression. Brackets and the end are checked without positions. -/
def check (ts : List Token) : Careful Unit := do
  if ts.isEmpty then throw .emptyText
  checkWindows (windows ts)
  answer (Token.checkBrackets 0 [] ts)
  answer (Token.checkEnd ts)

/-- The checked tokens of a text. -/
def tokens (text : List Char) (known : List String) : Careful (List Token) := do
  if text.any fun c => 128 ≤ c.toNat then throw .nonAscii
  let ts ← tokensFrom known text (utf8Length text + 1) [] [] 0
  check ts
  return ts

/-! ### What is matched, by itself -/

/-- The text in front of what was left is what was taken. -/
theorem matched?_append {α : Type} {read : List Char → Option (α × List Char)} {w rest : List Char}
    {a : α} (h : read (w ++ rest) = some (a, rest)) : matched? read (w ++ rest) = some w := by
  rw [matched?, h, Option.map_some, List.length_append, Nat.add_sub_cancel, List.take_left]

theorem spelled?_eq (word : String) : spelled? word = pure (Operator.find? word) := by
  simp only [spelled?, Operator.find?, List.find?_eq_bind_findIdx?_getElem?]
  split
  · next hnone => rw [hnone, Option.bind_none]
  · next i hsome =>
    obtain ⟨hi, -⟩ := List.findIdx?_eq_some_iff_getElem.1 hsome
    rw [hsome, Option.bind_some, List.getElem?_eq_getElem hi, reach_some]
    rfl

theorem wordToken_eq (known : List String) (isUnit : Bool) (word : String) :
    wordToken known isUnit word = pure (Token.ofLexeme known isUnit (.word word)) := by
  rw [wordToken, Token.ofLexeme]
  split
  · rfl
  · rw [spelled?_eq, pure_bind]
    cases Operator.find? word <;> rfl

/-- Every symbol is the spelling of its operator. -/
theorem symbolToken_eq {w : List Char} {o : Operator} (h : (w, o) ∈ Operator.symbols) :
    symbolToken (String.ofList w) = pure (.op o) := by
  have hsymbols : ∀ p ∈ Operator.symbols, Operator.find? (String.ofList p.1) = some p.2 := by
    decide +kernel
  rw [symbolToken, spelled?_eq, pure_bind, hsymbols _ h]

/-- A number that was matched is read by itself. -/
theorem parseNumber_eq {v : Value} {w rest : List Char} (h : Matches (.number v) w rest) :
    parseNumber w = pure v := by
  cases h with
  | mark h => simp [Lexeme.marks] at h
  | @percent n w _ h =>
    rw [parseNumber, if_pos (by simp), List.dropLast_concat, toDouble, h.parseDouble?]
    rfl
  | @number n w _ h =>
    have hdouble : toDouble w = pure (n.toDouble false) := by
      rw [toDouble, h.parseDouble?]
      rfl
    -- what is matched without a percent sign does not end with one
    have hpercent : w.getLast? ≠ some '%' := by
      intro hlast
      have hchars : ∀ c ∈ w, c ≠ '%' :=
        h.forall_mem (fun c hc => by rintro rfl; cases hc) (by simp)
      exact hchars '%' (List.mem_of_getLast? hlast) rfl
    have hmarks : (w.any fun c => c == '.' || c == 'e' || c == 'E') ↔ ¬ n.isInteger := by
      rw [← h.exists_mark_iff, List.any_eq_true]
      simp [or_assoc]
    rw [parseNumber, if_neg hpercent, Numeral.value, if_neg Bool.false_ne_true]
    by_cases hinteger : n.isInteger
    · obtain rfl := h.eq_whole hinteger
      have hne : n.whole ≠ [] := by
        obtain ⟨c, cs, hcons, -⟩ := h.exists_cons
        rw [hcons]
        exact List.cons_ne_nil c cs
      have hint : toInt? n.whole = Fraction.ofInt? (ofDigits n.whole) :=
        if_pos ⟨hne, List.all_eq_true.2 h.whole⟩
      rw [if_neg (not_not_intro hinteger ∘ hmarks.1), if_pos hinteger, hint, hdouble]
      cases Fraction.ofInt? (ofDigits n.whole) <;> rfl
    · rw [if_pos (hmarks.2 hinteger), if_neg hinteger, hdouble]
      rfl

/-! ### One token by itself -/

section

variable {known : List String} {isUnit : Bool}

/-- What reading a text by patterns says about the token at its front, with the bytes it has. -/
def measured (known : List String) (isUnit : Bool) (cs : List Char) :
    Option (Lexeme × List Char) → Careful (Token × Nat)
  | some (l, rest) =>
    return (Token.ofLexeme known isUnit l, utf8Length cs - utf8Length rest)
  | none => throw (.unreadable (String.ofList cs))

theorem measured_append (w rest : List Char) (l : Lexeme) :
    measured known isUnit (w ++ rest) (some (l, rest)) =
      pure (Token.ofLexeme known isUnit l, utf8Length w) := by
  rw [measured, utf8Length_append, Nat.add_sub_cancel]

theorem lexOther_eq (cs : List Char) :
    lexOther known isUnit cs = measured known isUnit cs
      (match number? cs with
        | some (v, rest) => some (.number v, rest)
        | none =>
          match word? cs with
          | some (name, rest) => some (.word name, rest)
          | none => (Operator.symbol? cs).map fun (o, rest) => (.symbol o, rest)) := by
  rw [lexOther]
  cases hnumber : number? cs with
  | some found =>
    -- a number is read once more from its text
    obtain ⟨v, rest⟩ := found
    obtain ⟨w, rfl, hmatch⟩ := Lexeme.exists_of_number? hnumber
    rw [matched?_append hnumber, measured_append]
    dsimp only
    rw [parseNumber_eq hmatch, pure_bind]
    rfl
  | none =>
    have hnone : matched? number? cs = none := by rw [matched?, hnumber, Option.map_none]
    rw [hnone]
    dsimp only
    cases hword : word? cs with
    | some found =>
      obtain ⟨x, rest⟩ := found
      obtain ⟨w, rfl, hmatch⟩ := Lexeme.exists_of_word? hword
      rw [matched?_append hword, measured_append]
      cases hmatch with
      | mark h => simp [Lexeme.marks] at h
      | word =>
        dsimp only
        rw [wordToken_eq, pure_bind]
    | none =>
      have hnone : matched? word? cs = none := by rw [matched?, hword, Option.map_none]
      rw [hnone, Operator.symbol?]
      dsimp only
      cases hsymbol : Operator.symbols.find? (·.1.isPrefixOf cs) with
      | none => rfl
      | some p =>
        -- the operator of a symbol is looked up once more by its spelling
        obtain ⟨w, o⟩ := p
        obtain ⟨rest, rfl⟩ : w <+: cs :=
          List.isPrefixOf_iff_prefix.1 (by simpa using List.find?_some hsymbol)
        dsimp only [Option.map_some]
        rw [symbolToken_eq (List.mem_of_find?_eq_some hsymbol), List.drop_left, measured_append,
          pure_bind]
        rfl

/-- A token is read with its length. -/
theorem lex_eq (c : Char) (cs : List Char) :
    lex known isUnit c (c :: cs) = measured known isUnit (c :: cs) (next? (c :: cs)) := by
  unfold next?
  split
  case h_6 rest heq =>
    cases heq
    show _ = measured known isUnit ([':', '='] ++ rest) (some (.define, rest))
    rw [measured_append]
    rfl
  case h_7 h₁ h₂ h₃ h₄ h₅ h₆ =>
    have hdefine : ¬ [':', '='].isPrefixOf (c :: cs) := by
      intro hpre
      obtain ⟨rest, hrest⟩ := List.isPrefixOf_iff_prefix.1 hpre
      exact h₆ rest hrest.symm
    refine Eq.trans ?_ (lexOther_eq (c :: cs))
    rw [lex]
    · exact if_neg hdefine
    · exact fun h => h₁ cs (by rw [h])
    · exact fun h => h₂ cs (by rw [h])
    · exact fun h => h₃ cs (by rw [h])
    · exact fun h => h₄ cs (by rw [h])
    · exact fun h => h₅ cs (by rw [h])
  all_goals
    next heq =>
    cases heq
    rw [← List.singleton_append, measured_append]
    rfl

end

/-! ### All tokens of a text -/

variable {known : List String}

/-- **Tokens are cut at the offsets at which lexemes are.** The offset is where what was read ends,
and every step passes at least one character, so that there are steps left at the end. -/
theorem tokensFrom_eq {front back : List Char} (hascii : ∀ c ∈ back, c.toNat < 128) {steps : Nat}
    (hsteps : back.length < steps) (groups : List OpenGroup) (read : List Token) :
    tokensFrom known (front ++ back) steps groups read (utf8Length front) =
      (fun ls => read ++
        Token.ofLexemesFrom known groups (read.getLast?.any Token.isConversion) ls) <$>
          Activation.answer (Lexeme.scan back) := by
  induction steps generalizing front back groups read with
  | zero => exact absurd hsteps (Nat.not_lt_zero _)
  | succ steps ih =>
    rw [tokensFrom, utf8Length_append]
    cases back with
    | nil =>
      rw [utf8Length_nil, Nat.add_zero, if_neg (Nat.lt_irrefl _), Lexeme.scan]
      show _ = pure (read ++ [])
      rw [List.append_nil]
    | cons c cs =>
      obtain ⟨hc, hcs⟩ := List.forall_mem_cons.1 hascii
      obtain ⟨byte, hbyte, rfl⟩ := firstByte?_cons hc cs
      have hsize : utf8Length [asChar byte] = 1 := by
        rw [utf8Length_cons, utf8Length_nil, utf8Size_of_ascii hc]
      have hlt : utf8Length front < utf8Length front + utf8Length (asChar byte :: cs) := by
        rw [utf8Length_cons, utf8Size_of_ascii hc]
        omega
      rw [if_pos hlt, textFrom?_append, reach_some, pure_bind, hbyte, reach_some, pure_bind]
      by_cases hblank : isBlank (asChar byte)
      · -- white space is passed
        have htext : front ++ asChar byte :: cs = (front ++ [asChar byte]) ++ cs := by simp
        have hlength : cs.length < steps := Nat.lt_of_succ_lt_succ hsteps
        rw [if_pos hblank, Lexeme.scan, if_pos hblank, htext, ← hsize, ← utf8Length_append]
        exact ih hcs hlength groups read
      · rw [if_neg hblank, lex_eq]
        cases hnext : next? (asChar byte :: cs) with
        | none =>
          rw [Lexeme.scan_of_next?_eq_none hblank hnext]
          rfl
        | some found =>
          obtain ⟨l, tail⟩ := found
          have hlength := Lexeme.length_lt_of_next? hnext
          rw [Lexeme.scan_of_next? hnext]
          obtain ⟨w, heq, -⟩ := Lexeme.exists_of_next? hnext
          rw [heq] at hascii ⊢
          obtain ⟨-, htail⟩ := List.forall_mem_append.1 hascii
          rw [measured_append, pure_bind, ← List.append_assoc]
          dsimp only
          rw [← utf8Length_append, ih htail (by omega), List.getLast?_concat]
          -- the token that was read is the first of those of the lexemes from here on
          cases Lexeme.scan tail with
          | error fault => rfl
          | ok ls => exact congrArg (pure (f := Careful)) (List.append_assoc read [_] _)

/-! ### Checks -/

/-- Both members of a pair are there. -/
theorem checkWindows_eq (ts : List Token) :
    checkWindows (windows ts) = Activation.answer (Token.checkNeighbours ts) := by
  induction ts with
  | nil => rfl
  | cons left ts ih =>
    cases ts with
    | nil => rfl
    | cons right rest =>
      rw [windows, checkWindows, Token.checkNeighbours]
      show (match Token.misplacement? left right with
        | some m => throw (.misplaced m)
        | none => checkWindows (windows (right :: rest)) : Careful Unit) = _
      cases Token.misplacement? left right with
      | some m => rfl
      | none => exact ih

theorem check_eq (ts : List Token) : check ts = answer (Token.check ts) := by
  rw [check, Token.check, checkWindows_eq]
  by_cases hempty : ts.isEmpty
  · rw [if_pos hempty, if_pos hempty]
    rfl
  · simp only [if_neg hempty, answer_bind]

/-- **No step is missed where tokens are read.** -/
theorem tokens_eq (text : List Char) :
    tokens text known = Activation.answer (Token.ofText text known) := by
  rw [tokens, Token.ofText]
  by_cases hnonAscii : text.any fun c => 128 ≤ c.toNat
  · rw [if_pos hnonAscii, if_pos hnonAscii]
    rfl
  · have hascii : ∀ c ∈ text, c.toNat < 128 := by
      simpa [List.any_eq_true, Nat.not_le] using hnonAscii
    have hsteps : text.length < utf8Length text + 1 := Nat.lt_succ_of_le (length_le_utf8Length text)
    have hread := @tokensFrom_eq known [] text hascii _ hsteps [] []
    rw [List.nil_append, utf8Length_nil] at hread
    simp only [if_neg hnonAscii, hread, answer_bind, ← check_eq]
    cases Lexeme.scan text <;> rfl

end Abacus.Positional
