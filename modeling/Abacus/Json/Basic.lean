import Abacus.Decimal.Layout
import Abacus.Decimal.Numeral

/-!
# JSON documents

Documents in which integers of 64 bits, signed or unsigned, stay exact and all other numbers are
doubles. Records keep the order of their fields.
-/

namespace Abacus

/-- A JSON document. -/
inductive Json
  | null
  | bool (b : Bool)
  | integer (n : Int)
  | real (x : Float)
  | text (s : String)
  | list (items : List Json)
  | record (fields : List (String × Json))

namespace Json

/-- The field of a record with a name. -/
def field? (j : Json) (name : String) : Option Json :=
  match j with
  | record fields => (fields.find? fun f => f.1 == name).map Prod.snd
  | _ => none

/-- The text that a document is. -/
def text? : Json → Option String
  | text s => some s
  | _ => none

/-- The list that a document is. -/
def list? : Json → Option (List Json)
  | list items => some items
  | _ => none

/-- The truth value that a document is. -/
def bool? : Json → Option Bool
  | bool b => some b
  | _ => none

/-- The natural that a document is. -/
def natural? : Json → Option Nat
  | integer n => if 0 ≤ n then some n.toNat else none
  | _ => none

/-- A double as a document; infinities and NaN have none. -/
def ofDouble (x : Float) : Json := if x.isFinite then real x else null

/-! ### Writing -/

/-- The hexadecimal digits of a natural below `2 ^ 16`. -/
def hexDigits (n : Nat) : List Char :=
  let ds := Nat.toDigits 16 n
  List.replicate (4 - ds.length) '0' ++ ds

/-- A character inside a written text. -/
def escape (c : Char) : List Char :=
  if c = '"' then ['\\', '"']
  else if c = '\\' then ['\\', '\\']
  else if c.toNat < 32 then '\\' :: 'u' :: hexDigits c.toNat
  else [c]

/-- A text in quotation marks. -/
def quote (s : String) : String := String.ofList ('"' :: s.toList.flatMap escape ++ ['"'])

/-- Written members between brackets. -/
def enclose (opening : String) (members : List String) (closing : String) : String :=
  opening ++ String.intercalate "," members ++ closing

mutual

/-- The written form of a document, on one line. -/
def write : Json → String
  | null => "null"
  | bool b => if b then "true" else "false"
  | integer n => Decimal.integer n
  | real x => Decimal.literal x
  | text s => quote s
  | list items => enclose "[" (writeItems items) "]"
  | record fields => enclose "\x7b" (writeFields fields) "\x7d"

/-- The written forms of documents. -/
def writeItems : List Json → List String
  | [] => []
  | j :: js => j.write :: writeItems js

/-- The written forms of fields. -/
def writeFields : List (String × Json) → List String
  | [] => []
  | (name, j) :: fields => (quote name ++ ":" ++ j.write) :: writeFields fields

end

mutual

/-- A document with each number replaced by its text. -/
def numbersAsText : Json → Json
  | null => null
  | bool b => bool b
  | integer n => text (Decimal.integer n)
  | real x => text (Decimal.literal x)
  | text s => text s
  | list items => list (itemsAsText items)
  | record fields => record (fieldsAsText fields)

/-- Documents with each number replaced by its text. -/
def itemsAsText : List Json → List Json
  | [] => []
  | j :: js => j.numbersAsText :: itemsAsText js

/-- Fields with each number replaced by its text. -/
def fieldsAsText : List (String × Json) → List (String × Json)
  | [] => []
  | (name, j) :: fields => (name, j.numbersAsText) :: fieldsAsText fields

end

end Json

end Abacus
