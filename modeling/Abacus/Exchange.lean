import Abacus.Json.Basic
import Abacus.Settings
import Abacus.Term.Statement

/-!
# Values and settings as documents

Values, definitions, terms, fractions and settings can be exchanged as JSON documents. A value is a
record with one field, named for its guise; a term is its text; a fraction is the list of its two
parts. Records of a known form may carry further fields, which do not matter, and may also be given
as the list of their fields in order. Settings that are missing have their usual values.
-/

namespace Abacus

/-- Why a document was not understood. -/
inductive ExchangeFault
  /-- The document does not have the form that is expected. -/
  | form
  /-- A text is not a term. -/
  | term (fault : Fault)
  /-- Two integers are not the parts of a fraction. -/
  | fraction (fault : Fault)

/-- The wording of an exchange fault. A wrong form has none of its own. -/
def ExchangeFault.message? : ExchangeFault → Option String
  | form => none
  | term fault => some ("Parse error - " ++ fault.message)
  | fraction fault => some fault.text

namespace Json

/-- What is expected of a document or a wrong form. -/
def expect {α : Type} : Option α → Except ExchangeFault α
  | some a => .ok a
  | none => .error .form

/-- The double that a document is; integers count as doubles. -/
def toDouble : Json → Except ExchangeFault Float
  | real x => .ok x
  | integer n => .ok (Binary64.ofInt n)
  | _ => .error .form

/-- The signed integer of 64 bits that a document is. -/
def toWord : Json → Except ExchangeFault Int
  | integer n => expect (Fraction.word? n)
  | _ => .error .form

/-- The texts that a document lists. -/
def toTexts : Json → Except ExchangeFault (List String)
  | list items => expect (items.mapM text?)
  | _ => .error .form

end Json

open Json (expect)

/-! ### Fractions, terms and definitions -/

/-- A fraction as a document. -/
def Fraction.toJson (q : Fraction) : Json := .list [.integer q.numerator, .integer q.denominator]

/-- The fraction that a document gives. -/
def Fraction.ofJson : Json → Except ExchangeFault Fraction
  | .list [n, d] => do
    let n ← n.toWord
    let d ← d.toWord
    (make n d).mapError .fraction
  | _ => .error .form

/-- A term as a document. -/
def Term.toJson (t : Term) : Json := .text t.text

/-- The term that a document gives. No names are known. -/
def Term.ofJson : Json → Except ExchangeFault Term
  | .text s => (parse s []).mapError .term
  | _ => .error .form

namespace Definition

/-- A definition as a document. -/
def toJson (f : Definition) : Json :=
  .record
    [("identifier", .text f.name), ("params", .list (f.parameters.map .text)),
      ("body", f.body.toJson)]

/-- The parts of a definition that have been read. -/
structure Draft where
  name : Option String := none
  parameters : Option (List String) := none
  body : Option Term := none

/-- Reads one field of a definition. -/
def Draft.read (d : Draft) (field : String) (j : Json) : Except ExchangeFault Draft :=
  match field with
  | "identifier" => do return { d with name := some (← expect j.text?) }
  | "params" => do return { d with parameters := some (← j.toTexts) }
  | "body" => do return { d with body := some (← Term.ofJson j) }
  | _ => .ok d

/-- The definition whose parts have all been read. -/
def Draft.finish : Draft → Except ExchangeFault Definition
  | ⟨some name, some parameters, some body⟩ => .ok ⟨name, parameters, body⟩
  | _ => .error .form

/-- The names of the fields of a definition in order. -/
def fieldNames : List String := ["identifier", "params", "body"]

/-- The definition that a document gives. -/
def ofJson : Json → Except ExchangeFault Definition
  | .record fields => do
    (← fields.foldlM (fun d (field, j) => d.read field j) ({} : Draft)).finish
  | .list items => do
    let d ← (fieldNames.zip items).foldlM (fun d (field, j) => d.read field j) ({} : Draft)
    if fieldNames.length < items.length then .error .form else d.finish
  | _ => .error .form

end Definition

/-! ### Values -/

namespace Value

mutual

/-- A value as a document. -/
def toJson : Value → Json
  | double x => .record [("Double", .ofDouble x)]
  | rational q => .record [("Rational", q.toJson)]
  | percent magnitude => .record [("Percent", .ofDouble magnitude)]
  | boolean b => .record [("Boolean", .bool b)]
  | vector elements => .record [("Vector", .list (elementsToJson elements))]
  | matrix rows => .record [("Matrix", .list (rowsToJson rows))]
  | function f => .record [("Function", f.toJson)]

/-- Values as documents. -/
def elementsToJson : List Value → List Json
  | [] => []
  | v :: vs => v.toJson :: elementsToJson vs

/-- Rows of values as documents. -/
def rowsToJson : List (List Value) → List Json
  | [] => []
  | row :: rows => .list (elementsToJson row) :: rowsToJson rows

end

mutual

/-- The value that a document gives. -/
def ofJson : Json → Except ExchangeFault Value
  | .record [("Double", j)] => double <$> j.toDouble
  | .record [("Rational", j)] => rational <$> Fraction.ofJson j
  | .record [("Percent", j)] => percent <$> j.toDouble
  | .record [("Boolean", j)] => boolean <$> expect j.bool?
  | .record [("Vector", .list items)] => vector <$> elementsOfJson items
  | .record [("Matrix", .list items)] => matrix <$> rowsOfJson items
  | .record [("Function", j)] => function <$> Definition.ofJson j
  | _ => .error .form

/-- The values that documents give. -/
def elementsOfJson : List Json → Except ExchangeFault (List Value)
  | [] => .ok []
  | j :: js => do
    let v ← ofJson j
    let vs ← elementsOfJson js
    return v :: vs

/-- The rows of values that documents give. -/
def rowsOfJson : List Json → Except ExchangeFault (List (List Value))
  | [] => .ok []
  | .list items :: js => do
    let row ← elementsOfJson items
    let rows ← rowsOfJson js
    return row :: rows
  | _ :: _ => .error .form

end

end Value

/-! ### Settings -/

/-- An angle unit as a document. -/
def AngleUnit.toJson (u : AngleUnit) : Json := .text u.name

/-- The angle unit that a document gives: its name, or a record in which the name has no content. -/
def AngleUnit.ofJson : Json → Except ExchangeFault AngleUnit
  | .text name => expect (find? name)
  | .record [(name, .null)] => expect (find? name)
  | _ => .error .form

namespace Settings

/-- Settings as a document. -/
def toJson (s : Settings) : Json :=
  .record
    [("angle_unit", s.angleUnit.toJson), ("max_depth", .integer s.maxDepth),
      ("rational_epsilon", .ofDouble s.tolerance), ("rational_max_terms", .integer s.maxTerms)]

/-- Reads one field of the settings. -/
def read (s : Settings) (field : String) (j : Json) : Except ExchangeFault Settings :=
  match field with
  | "angle_unit" => do return { s with angleUnit := ← AngleUnit.ofJson j }
  | "max_depth" => do return { s with maxDepth := ← expect j.natural? }
  | "rational_epsilon" => do return { s with tolerance := ← j.toDouble }
  | "rational_max_terms" => do return { s with maxTerms := ← expect j.natural? }
  | _ => .ok s

/-- The names of the fields of the settings in order. -/
def fieldNames : List String :=
  ["angle_unit", "max_depth", "rational_epsilon", "rational_max_terms"]

/-- The settings that a document gives. -/
def ofJson : Json → Except ExchangeFault Settings
  | .record fields => fields.foldlM (fun s (field, j) => s.read field j) {}
  | .list items =>
    if fieldNames.length < items.length then .error .form
    else (fieldNames.zip items).foldlM (fun s (field, j) => s.read field j) {}
  | _ => .error .form

end Settings

end Abacus
