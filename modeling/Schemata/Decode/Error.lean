import Schemata.Json.Source
import Schemata.Number.Printer
import Schemata.Text.Quoted
/-!
# DecodeError — why something could not be decoded

The first problem from the left is the one reported, whether it is a flaw of the text or content of
the wrong kind.
-/
namespace Schemata

/-- What stood where something else was expected. -/
inductive Found where
  | null
  | boolean (b : Bool)
  | number (x : Number)
  | string (s : String)
  | sequence
  | map
  deriving DecidableEq

def Found.render : Found → String
  | null => "null"
  | boolean b => "boolean `" ++ (if b then "true" else "false") ++ "`"
  | number (.binary x) => "floating point `" ++ x.render ++ "`"
  | number x => "integer `" ++ x.render ++ "`"
  | string s => "string " ++ Quoted.encode s
  | sequence => "sequence"
  | map => "map"

/-- Why something could not be decoded. -/
inductive DecodeError where
  /-- The text has a flaw. -/
  | flawed (flaw : Flaw)
  | wrongType (found : Found) (expected : String)
  /-- A named choice must be the only member of its object. -/
  | wrongChoice
  | missingField (name : String)
  | duplicateField (name : String)
  /-- A field without a default is missing from an array that stands for a record. -/
  | tooShort (length : Nat) (expected : String)
  /-- An array that stands for a record has more elements than the record has fields. -/
  | tooLong (length : Nat)
  | unknownChoice (name : String) (expected : List String)
  | alternativeNotObject
  | alternativeUndecided
  deriving DecidableEq

namespace DecodeError

def oneOf : List String → String
  | [a, b] => "`" ++ a ++ "` or `" ++ b ++ "`"
  | names => "one of " ++ ", ".intercalate (names.map fun n => "`" ++ n ++ "`")

/-- The message for an error of content; a flaw of the text has none of its own. -/
def message : DecodeError → String
  | flawed .malformed => "malformed text"
  | flawed .truncated => "truncated text"
  | wrongType found expected => "invalid type: " ++ found.render ++ ", expected " ++ expected
  | wrongChoice => "invalid value: map, expected map with a single key"
  | missingField name => "missing field `" ++ name ++ "`"
  | duplicateField name => "duplicate field `" ++ name ++ "`"
  | tooShort length expected => "invalid length " ++ toString length ++ ", expected " ++ expected
  | tooLong length => "invalid length " ++ toString length ++ ", expected fewer elements in array"
  | unknownChoice name expected => "unknown variant `" ++ name ++ "`, expected " ++ oneOf expected
  | alternativeNotObject => "alternative must be an object"
  | alternativeUndecided =>
    "alternative must carry `type` or one of `ref`, `is`, `then`, `otherwise`"

end DecodeError

abbrev Decoded (α : Type) : Type := Except DecodeError α

def Decoded.ofRead {α : Type} : Except Flaw α → Decoded α
  | .ok a => .ok a
  | .error flaw => .error (.flawed flaw)

end Schemata
