/-!
# Kind — the types that are converted out of the box

The type name of a description selects its kind.
-/
namespace Schemata

/-- A type with a conversion of its own. -/
inductive Kind where
  | string
  | number
  | boolean
  | binary
  | date
  | array
  | object
  | alternatives
  deriving DecidableEq, Repr

namespace Kind

def all : List Kind := [string, number, boolean, binary, date, array, object, alternatives]

def name : Kind → String
  | string => "string"
  | number => "number"
  | boolean => "boolean"
  | binary => "binary"
  | date => "date"
  | array => "array"
  | object => "object"
  | alternatives => "alternatives"

def ofName? (typeName : String) : Option Kind := all.find? fun k => k.name = typeName

end Kind
end Schemata
