import Schemata.Settings.Decode
import Schemata.Toml.Reader
/-!
# Settings from TOML and from files

A TOML document gives settings at its top level; everything else in it is skipped, but must be TOML.
A file is read as text before its name is looked at, and its extension tells the format.
-/
namespace Schemata
namespace Settings

open Toml (Value Table)

def tomlBoolean : Value → Option Bool
  | .boolean b => some b
  | _ => none

/-- A format of IP addresses: its name, or a table whose only member is that name with nothing in
it. -/
def tomlIpFormat : Value → Option IpFormat
  | .string s => IpFormat.ofName? s
  | .table _ [(name, v)] => if v.isEmptyContainer then IpFormat.ofName? name else none
  | _ => none

def tomlField {α : Type} (t : Table) (f : Field) (read : Value → Option α) (default : α) :
    Option α :=
  match Members.get? t f.name with
  | some v => read v
  | none => some default

def ofTable (t : Table) : Option Settings := do
  let d : Settings := {}
  let ipFormat ← tomlField t .ipFormat tomlIpFormat d.ipFormat
  let extract ← tomlField t .extract tomlBoolean d.extract
  let extractPath ← tomlField t .extractPath (fun | .string s => some s | _ => none) d.extractPath
  let ignoreUnknownRules ← tomlField t .ignoreUnknownRules tomlBoolean d.ignoreUnknownRules
  let ignoreUnknownTypes ← tomlField t .ignoreUnknownTypes tomlBoolean d.ignoreUnknownTypes
  return { ipFormat, extract, extractPath, ignoreUnknownRules, ignoreUnknownTypes }

/-- **Read settings from TOML text.** -/
def ofTomlText (text : String) : Except SettingsError Settings :=
  match (Toml.read? text).bind ofTable with
  | some s => .ok s
  | none => .error .invalidToml

/-! ## Files -/

/-- The extension of a file name: what follows its last dot, unless that dot starts the name. -/
def extension? (fileName : String) : Option String :=
  let name := (fileName.toList.reverse.takeWhile fun c => c != '/').reverse
  let tail := (name.reverse.takeWhile fun c => c != '.').reverse
  if tail.length + 1 < name.length then some (String.ofList tail) else none

/-- **Read settings from a file**, given its name and its bytes, if there are any. -/
def ofFile (fileName : String) (content : Option ByteArray) : Except SettingsError Settings :=
  match content.bind String.fromUTF8? with
  | none => .error .unreadable
  | some text =>
    match extension? fileName with
    | some "toml" => ofTomlText text
    | some "json" => ofJsonText text
    | _ => .error .unsupportedFormat

end Settings
end Schemata
