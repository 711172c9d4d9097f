/-!
# Settings

The unit in which circular functions measure angles, and the limits and tolerances of an evaluation.
-/

namespace Abacus

/-- The constant π. -/
def pi : Float := 3.141592653589793

/-- The unit in which circular functions take their argument and in which their inverses answer. -/
inductive AngleUnit
  | radians | degrees | gradians
  deriving DecidableEq, Repr, Inhabited

namespace AngleUnit

/-- All angle units. -/
def all : List AngleUnit := [radians, degrees, gradians]

/-- The name of an angle unit. -/
def name : AngleUnit → String
  | radians => "radians"
  | degrees => "degrees"
  | gradians => "gradians"

/-- The angle unit with a name. -/
def find? (name : String) : Option AngleUnit := all.find? fun u => u.name == name

/-- A full turn in this unit. -/
def fullTurn : AngleUnit → Float
  | radians => 2.0 * pi
  | degrees => 360.0
  | gradians => 400.0

/-- An angle in radians. Radians stay as they are. -/
def toRadians (u : AngleUnit) (x : Float) : Float :=
  match u with
  | radians => x
  | _ => x * 2.0 * pi / u.fullTurn

/-- An angle of radians in this unit. -/
def ofRadians (u : AngleUnit) (x : Float) : Float :=
  match u with
  | radians => x
  | _ => x * u.fullTurn / (2.0 * pi)

end AngleUnit

/-- The settings of an evaluation. -/
structure Settings where
  /-- The angle unit with which an environment starts. -/
  angleUnit : AngleUnit := .radians
  /-- How deep calls of defined functions may nest. -/
  maxDepth : Nat := 256
  /-- How near a fraction has to come to a double that it approximates. -/
  tolerance : Float := 1e-10
  /-- How many partial quotients an approximation may use. -/
  maxTerms : Nat := 32

instance : Inhabited Settings := ⟨{}⟩

end Abacus
