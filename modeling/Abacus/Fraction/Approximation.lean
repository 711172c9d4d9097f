import Abacus.Fraction.Arithmetic

/-!
# Fractions near a double

A double is expanded into a continued fraction. The convergents `h / k` are kept together with their
predecessors, and one more partial quotient `a` turns them into `(a · h + h') / (a · k + k')`. The
expansion stops at the first convergent that is near enough, at a limit on the number of terms, or
before the first convergent that does not fit into 64 bits.
-/

namespace Abacus.Fraction

/-- Two successive convergents, the latest one first. -/
structure Convergents where
  numerator : Int
  denominator : Int
  previousNumerator : Int
  previousDenominator : Int
  deriving DecidableEq, Repr

namespace Convergents

/-- The convergents of an integer part alone. -/
def start (whole : Int) : Convergents := ⟨whole, 1, 1, 0⟩

/-- The convergents with one more partial quotient, if they fit. -/
def extend? (c : Convergents) (a : Int) : Option Convergents := do
  let n ← word? ((← word? (a * c.numerator)) + c.previousNumerator)
  let d ← word? ((← word? (a * c.denominator)) + c.previousDenominator)
  some ⟨n, d, c.numerator, c.denominator⟩

/-- The latest convergent as a double. -/
def toFloat (c : Convergents) : Float :=
  Binary64.ofInt c.numerator / Binary64.ofInt c.denominator

/-- The convergents of `x` with one more partial quotient, where `rest` is the part of `x` that they
leave out, as a number between zero and one. There are none if nothing is left out, if they are
within `tolerance`, or if the next ones do not fit. -/
def next? (x tolerance : Float) (c : Convergents) (rest : Float) : Option (Convergents × Float) :=
  if rest != 0 && (c.toFloat - x).abs > tolerance then
    let inverted := 1 / rest
    let term := Binary64.floor inverted
    if term ≥ Binary64.ofInt Binary64.maxInt then none
    else (c.extend? (Binary64.truncated term)).map fun next => (next, inverted - term)
  else none

/-- Expands `x` by at most `terms` further partial quotients. -/
def expand (x tolerance : Float) : (terms : Nat) → Convergents → (rest : Float) → Convergents
  | 0, c, _ => c
  | terms + 1, c, rest =>
    match next? x tolerance c rest with
    | some (next, rest) => expand x tolerance terms next rest
    | none => c

end Convergents

/-- The first convergent of `x` within `tolerance`, or the last one that `terms` partial quotients
and 64 bits allow. There is none for infinities, NaN and doubles from `2 ^ 63` on. -/
def near? (x tolerance : Float) (terms : Nat) : Option Fraction :=
  if !x.isFinite || x.abs ≥ Binary64.ofInt Binary64.maxInt then none
  else
    let whole := Binary64.floor x
    let c := Convergents.expand x tolerance (terms - 1)
      (.start (Binary64.truncated whole)) (x - whole)
    (make c.numerator c.denominator).toOption

end Abacus.Fraction
