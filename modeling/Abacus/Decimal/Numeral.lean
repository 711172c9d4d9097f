import Abacus.Decimal.Shortest

/-!
# Reading decimals

A numeral is digits with an optional point and an optional power of ten. Its value is the double
nearest to the number that it writes. `Numeral.scan?` takes the longest numeral from the front of a
text.
-/

namespace Abacus.Decimal

open Binary64

/-- A decimal digit. -/
def isDigit (c : Char) : Bool := '0' ≤ c && c ≤ '9'

/-- The value of a decimal digit. -/
def digitValue (c : Char) : Nat := c.toNat - '0'.toNat

/-- The natural written by a list of digits. -/
def ofDigits (ds : List Char) : Nat := ds.foldl (fun n c => 10 * n + digitValue c) 0

/-- The double nearest to `±n · 10 ^ e`. The numbers from `10 ^ 400` on are infinite and those below
`10 ^ -400` are zero, whatever the power, so that no power of ten beyond those is computed. -/
def toDouble (negative : Bool) (n : Nat) (e : Int) : Float :=
  let leading := (n.log2 : Int) * 30103 / 100000 + e
  if n = 0 ∨ leading < -400 then nearest negative 0 1
  else if 400 < leading then ofMagnitude negative infinityBits
  else nearest negative (n * tenPow e) (tenPow (-e))

/-- The parts of a numeral. -/
structure Numeral where
  whole : List Char
  hasPoint : Bool
  decimals : List Char
  /-- The power of ten behind the mark `e` or `E`, if there is one. -/
  power : Option Int

/-- A numeral of digits alone, without point and power. -/
def Numeral.isInteger (n : Numeral) : Bool := !n.hasPoint && n.power.isNone

/-- The double nearest to the number that a numeral writes. -/
def Numeral.toDouble (n : Numeral) (negative : Bool) : Float :=
  Decimal.toDouble negative (ofDigits (n.whole ++ n.decimals))
    (n.power.getD 0 - n.decimals.length)

/-- A power of ten at the front: the mark, an optional sign, and digits. Without digits there is no
power, and the text stays as it is. -/
def scanPower (cs : List Char) : Option Int × List Char :=
  match cs with
  | c :: rest =>
    if c = 'e' ∨ c = 'E' then
      let (negative, rest) := match rest with
        | '-' :: r => (true, r)
        | '+' :: r => (false, r)
        | r => (false, r)
      match rest.takeWhile isDigit with
      | [] => (none, cs)
      | ds => (some (if negative then -(ofDigits ds : Int) else ofDigits ds),
          rest.dropWhile isDigit)
    else (none, cs)
  | [] => (none, [])

/-- The longest numeral at the front of a text, and the rest. A numeral starts with a digit, or with
a point and a digit. -/
def Numeral.scan? (cs : List Char) : Option (Numeral × List Char) :=
  let whole := cs.takeWhile isDigit
  match whole, cs.dropWhile isDigit with
  | [], '.' :: rest =>
    let decimals := rest.takeWhile isDigit
    if decimals.isEmpty then none
    else
      let (power, rest) := scanPower (rest.dropWhile isDigit)
      some (⟨[], true, decimals, power⟩, rest)
  | [], _ => none
  | _, '.' :: rest =>
    let (power, tail) := scanPower (rest.dropWhile isDigit)
    some (⟨whole, true, rest.takeWhile isDigit, power⟩, tail)
  | _, rest =>
    let (power, tail) := scanPower rest
    some (⟨whole, false, [], power⟩, tail)

/-- The double that a whole text names: a numeral with an optional minus sign, or one of the words
`NaN`, `inf` and `-inf`. -/
def parseDouble? (text : String) : Option Float :=
  match text with
  | "NaN" => some nan
  | "inf" => some infinity
  | "-inf" => some (-infinity)
  | _ =>
    let (negative, cs) := match text.toList with
      | '-' :: r => (true, r)
      | r => (false, r)
    match Numeral.scan? cs with
    | some (n, []) => some (n.toDouble negative)
    | _ => none

end Abacus.Decimal
