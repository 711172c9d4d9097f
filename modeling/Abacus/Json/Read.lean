import Abacus.Json.Basic

/-!
# Reading JSON

A reader that descends once per bracket and once per member. The number of descents is at most twice
the length of the text, which bounds the recursion.
-/

namespace Abacus.Json

open Decimal (Numeral)

/-- White space between the parts of a document. -/
def isBlank (c : Char) : Bool := c == ' ' || c == '\t' || c == '\n' || c == '\r'

/-- A text without the blanks at its front. -/
def skipBlanks (cs : List Char) : List Char := cs.dropWhile isBlank

/-- The value of a hexadecimal digit. -/
def hexValue? (c : Char) : Option Nat :=
  if '0' ≤ c ∧ c ≤ '9' then some (c.toNat - '0'.toNat)
  else if 'a' ≤ c ∧ c ≤ 'f' then some (c.toNat - 'a'.toNat + 10)
  else if 'A' ≤ c ∧ c ≤ 'F' then some (c.toNat - 'A'.toNat + 10)
  else none

/-- Four hexadecimal digits at the front of a text. -/
def hexUnit? : List Char → Option (Nat × List Char)
  | a :: b :: c :: d :: rest => do
    let n := ((← hexValue? a) * 16 + (← hexValue? b)) * 256 + (← hexValue? c) * 16 + (← hexValue? d)
    some (n, rest)
  | _ => none

/-- The character that a pair of surrogates stands for. -/
def ofSurrogates (high low : Nat) : Char :=
  Char.ofNat (0x10000 + (high - 0xd800) * 0x400 + (low - 0xdc00))

/-- The character of an escape sequence, given what stands behind the backslash. -/
def escaped? : List Char → Option (Char × List Char)
  | '"' :: rest => some ('"', rest)
  | '\\' :: rest => some ('\\', rest)
  | '/' :: rest => some ('/', rest)
  | 'b' :: rest => some ('\x08', rest)
  | 'f' :: rest => some ('\x0c', rest)
  | 'n' :: rest => some ('\n', rest)
  | 'r' :: rest => some ('\r', rest)
  | 't' :: rest => some ('\t', rest)
  | 'u' :: rest => do
    let (n, rest) ← hexUnit? rest
    if 0xd800 ≤ n ∧ n < 0xdc00 then
      match rest with
      | '\\' :: 'u' :: rest =>
        let (m, rest) ← hexUnit? rest
        if 0xdc00 ≤ m ∧ m < 0xe000 then some (ofSurrogates n m, rest) else none
      | _ => none
    else if 0xdc00 ≤ n ∧ n < 0xe000 then none
    else some (Char.ofNat n, rest)
  | _ => none

/-- The characters of a text up to its closing quotation mark. -/
def quoted? : (fuel : Nat) → List Char → List Char → Option (String × List Char)
  | 0, _, _ => none
  | _ + 1, read, '"' :: rest => some (String.ofList read.reverse, rest)
  | fuel + 1, read, '\\' :: rest =>
    match escaped? rest with
    | some (c, rest) => quoted? fuel (c :: read) rest
    | none => none
  | fuel + 1, read, c :: rest => quoted? fuel (c :: read) rest
  | _ + 1, _, [] => none

/-- The largest natural of 64 bits. -/
def maxNatural : Int := 18446744073709551615

/-- The number that a numeral writes: an integer if it is written as one and fits into 64 bits, a
double otherwise. Negative zero is a double. -/
def ofNumeral (negative : Bool) (n : Numeral) : Json :=
  let magnitude : Int := Decimal.ofDigits n.whole
  let exact := if negative then -magnitude else magnitude
  let fits := Binary64.minInt ≤ exact && exact ≤ maxNatural
  if n.isInteger && fits && !(negative && magnitude == 0) then integer exact
  else real (n.toDouble negative)

/-- A number at the front of a text. -/
def number? (cs : List Char) : Option (Json × List Char) :=
  let (negative, digits) := match cs with
    | '-' :: rest => (true, rest)
    | rest => (false, rest)
  (Numeral.scan? digits).map fun (n, rest) => (ofNumeral negative n, rest)

mutual

/-- A document at the front of a text. -/
def value? : (fuel : Nat) → List Char → Option (Json × List Char)
  | 0, _ => none
  | fuel + 1, cs =>
    match skipBlanks cs with
    | 'n' :: 'u' :: 'l' :: 'l' :: rest => some (null, rest)
    | 't' :: 'r' :: 'u' :: 'e' :: rest => some (bool true, rest)
    | 'f' :: 'a' :: 'l' :: 's' :: 'e' :: rest => some (bool false, rest)
    | '"' :: rest => (quoted? (rest.length + 1) [] rest).map fun (s, rest) => (text s, rest)
    | '[' :: rest =>
      match skipBlanks rest with
      | ']' :: rest => some (list [], rest)
      | rest => (items? fuel rest).map fun (items, rest) => (list items, rest)
    | '\x7b' :: rest =>
      match skipBlanks rest with
      | '\x7d' :: rest => some (record [], rest)
      | rest => (fields? fuel rest).map fun (fields, rest) => (record fields, rest)
    | rest => number? rest

/-- The items of a list up to its closing bracket. -/
def items? : (fuel : Nat) → List Char → Option (List Json × List Char)
  | 0, _ => none
  | fuel + 1, cs => do
    let (j, rest) ← value? fuel cs
    match skipBlanks rest with
    | ',' :: rest =>
      let (js, rest) ← items? fuel rest
      some (j :: js, rest)
    | ']' :: rest => some ([j], rest)
    | _ => none

/-- The fields of a record up to its closing bracket. -/
def fields? : (fuel : Nat) → List Char → Option (List (String × Json) × List Char)
  | 0, _ => none
  | fuel + 1, cs => do
    match skipBlanks cs with
    | '"' :: rest =>
      let (name, rest) ← quoted? (rest.length + 1) [] rest
      match skipBlanks rest with
      | ':' :: rest =>
        let (j, rest) ← value? fuel rest
        match skipBlanks rest with
        | ',' :: rest =>
          let (fields, rest) ← fields? fuel rest
          some ((name, j) :: fields, rest)
        | '\x7d' :: rest => some ([(name, j)], rest)
        | _ => none
      | _ => none
    | _ => none

end

/-- The document that a text writes. -/
def read? (s : String) : Option Json :=
  let cs := s.toList
  match value? (2 * cs.length + 2) cs with
  | some (j, rest) => if (skipBlanks rest).isEmpty then some j else none
  | none => none

end Abacus.Json
