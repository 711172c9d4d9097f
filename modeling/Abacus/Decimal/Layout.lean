import Abacus.Decimal.Shortest

/-!
# Decimal text of a double

Two layouts are in use. Values are written as *literals*: positional between `1e-4` and `1e16`, with
`.0` behind integers, so that the text never reads as an exact integer. Percentages and messages use
the *plain* layout, which is always positional and has no `.0`.
-/

namespace Abacus.Decimal

open Binary64

/-- How a decimal is laid out. -/
structure Layout where
  /-- Whether a decimal whose leading digit has this power of ten is written positionally. -/
  positional : Int → Bool
  /-- Whether integers end in `.0`. -/
  pointZero : Bool

/-- Positional from `1e-4` up to `1e16`; integers keep a point. -/
def Layout.literal : Layout := ⟨fun e => -4 ≤ e && e < 16, true⟩

/-- Always positional; integers have no point. -/
def Layout.plain : Layout := ⟨fun _ => true, false⟩

/-- The decimal digits of a natural. -/
def digitChars (n : Nat) : List Char := Nat.toDigits 10 n

/-- Digits with a point behind the first `point` of them. -/
def positionalChars (layout : Layout) (ds : List Char) (point : Int) : List Char :=
  if point ≤ 0 then '0' :: '.' :: (List.replicate (-point).toNat '0' ++ ds)
  else
    let n := point.toNat
    if n < ds.length then ds.take n ++ '.' :: ds.drop n
    else ds ++ List.replicate (n - ds.length) '0' ++ (if layout.pointZero then ['.', '0'] else [])

/-- The text of an integer, with a minus sign if it is negative. -/
def intChars (n : Int) : List Char :=
  if n < 0 then '-' :: digitChars n.natAbs else digitChars n.natAbs

/-- Digits with a point behind the first one and a power of ten. -/
def scientificChars (ds : List Char) (leading : Int) : List Char :=
  let mantissa := match ds with
    | [] => []
    | [d] => [d]
    | d :: rest => d :: '.' :: rest
  mantissa ++ 'e' :: intChars leading

/-- The text of a positive decimal. -/
def Digits.chars (layout : Layout) (d : Digits) : List Char :=
  let ds := digitChars d.digits
  let point := d.exponent + ds.length
  if layout.positional (point - 1) then positionalChars layout ds point
  else scientificChars ds (point - 1)

/-- The text of a double. NaN has no sign, zeros have one. -/
def chars (layout : Layout) (x : Float) : List Char :=
  if x.isNaN then ['N', 'a', 'N']
  else
    let magnitude := match parts? x with
      | none => ['i', 'n', 'f']
      | some p =>
        if p.significand = 0 then '0' :: (if layout.pointZero then ['.', '0'] else [])
        else (shortest p).chars layout
    if isNegative x then '-' :: magnitude else magnitude

/-- The text of a double as a value: `2.0`, `0.1`, `1e16`, `-0.0`, `NaN`, `inf`. -/
def literal (x : Float) : String := String.ofList (chars .literal x)

/-- The text of a double as a bare number: `2`, `0.1`, `10000000000000000`, `-0`, `NaN`, `inf`. -/
def plain (x : Float) : String := String.ofList (chars .plain x)

/-- The text of an integer. -/
def integer (n : Int) : String := String.ofList (intChars n)

end Abacus.Decimal
