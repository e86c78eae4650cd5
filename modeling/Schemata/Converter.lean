import Schemata.Conversion.Node
import Schemata.Description.Decode
/-!
# Converter — a session

A converter has checked options and the registry of what it extracted so far.  A conversion that
fails leaves the converter usable; what was registered before the failure stays.
-/
namespace Schemata

/-- Checked options, and the schemas extracted so far. -/
structure Converter where
  options : Options
  registry : Registry

namespace Converter

/-- A converter over a registry, if the options can be used. -/
def create (o : Options) (r : Registry) : Except SettingsError Converter :=
  o.validate.map fun options => ⟨options, r⟩

/-- **Convert a description.**  Nothing is returned when the node is dropped. -/
def convertDescription (c : Converter) (d : Description) :
    Except ConvertError (Option Json) × Converter :=
  let (result, registry) := (d.convert c.options).run c.registry
  (result, { c with registry })

/-- Read a description from a value and convert it, marked or not. -/
def convertUnmarked (c : Converter) (value : Json) :
    Except ConvertError (Option Json) × Converter :=
  match Description.ofJson value with
  | .ok d => c.convertDescription d
  | .error e => (.error (.notASchema (.undecodable e)), c)

/-- **Convert a value**, which must be marked as a schema. -/
def convert (c : Converter) (value : Json) : Except ConvertError (Option Json) × Converter :=
  if Description.isMarked value then c.convertUnmarked value
  else (.error (.notASchema .unmarked), c)

end Converter
end Schemata
