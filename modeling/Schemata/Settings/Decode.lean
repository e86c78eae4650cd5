import Schemata.Settings.Basic
import Schemata.Decode.Record
import Schemata.Json.Reader
/-!
# Reading settings from JSON

All fields have defaults, unknown ones are skipped, and an array of the values in order will do.
-/
namespace Schemata
namespace Settings

/-- The fields of settings. -/
inductive Field where
  | ipFormat
  | extract
  | extractPath
  | ignoreUnknownRules
  | ignoreUnknownTypes
  deriving DecidableEq

namespace Field

def all : List Field := [ipFormat, extract, extractPath, ignoreUnknownRules, ignoreUnknownTypes]

def name : Field → String
  | ipFormat => "ipFormat"
  | extract => "extract"
  | extractPath => "extractPath"
  | ignoreUnknownRules => "ignoreUnknownRules"
  | ignoreUnknownTypes => "ignoreUnknownTypes"

end Field

def ipFormatNamed (name : String) : Decoded IpFormat :=
  match IpFormat.ofName? name with
  | some format => .ok format
  | none => .error (.unknownChoice name IpFormat.names)

def record : Record Field Settings where
  title := "struct ConversionOptions"
  fields := Field.all
  name := Field.name
  field? s := Field.all.find? fun f => f.name = s
  isRequired _ := false
  read medium f s :=
    match f with
    | .ipFormat => do
      let ipFormat ← Decode.choice medium ipFormatNamed s
      return fun c => { c with ipFormat }
    | .extract => do
      let extract ← Decode.boolean s
      return fun c => { c with extract }
    | .extractPath => do
      let extractPath ← Decode.string s
      return fun c => { c with extractPath }
    | .ignoreUnknownRules => do
      let ignoreUnknownRules ← Decode.boolean s
      return fun c => { c with ignoreUnknownRules }
    | .ignoreUnknownTypes => do
      let ignoreUnknownTypes ← Decode.boolean s
      return fun c => { c with ignoreUnknownTypes }

/-- **Read settings from JSON text.** -/
def ofJsonText (text : String) : Except SettingsError Settings :=
  let t := SourceText.ofString text
  let read : Decoded Settings := do
    let s ← record.decode (.text Medium.levelLimit) {} t.root
    Decoded.ofRead t.checkEnd
    return s
  match read with
  | .ok s => .ok s
  | .error e => .error (.invalidJson e)

end Settings
end Schemata
