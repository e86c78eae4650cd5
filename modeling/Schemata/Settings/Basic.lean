import Schemata.Decode.Error
import Schemata.Json.Basic
/-!
# Settings — the choices of a conversion

Settings are plain data: they can be read from a text and written.  They must pass `validate` before
they are used.
-/
namespace Schemata

/-- The format of strings that are IP addresses. -/
inductive IpFormat where
  | ipv4
  | ipv6
  deriving DecidableEq

namespace IpFormat

/-- The name of a format, which is also the keyword's value. -/
def name : IpFormat → String
  | ipv4 => "ipv4"
  | ipv6 => "ipv6"

def ofName? (s : String) : Option IpFormat :=
  if s = "ipv4" then some ipv4 else if s = "ipv6" then some ipv6 else none

def names : List String := [ipv4.name, ipv6.name]

end IpFormat

/-- Why settings cannot be read or used. -/
inductive SettingsError where
  /-- The prefix of extraction paths must be absolute. -/
  | invalidExtractPath (path : String)
  /-- The file is not there, or is not text. -/
  | unreadable
  | invalidToml
  | invalidJson (error : DecodeError)
  /-- The name of the file does not tell its format. -/
  | unsupportedFormat
  deriving DecidableEq

def SettingsError.extractPathMessage (path : String) : String :=
  "extractPath must start with '/', got '" ++ path ++ "'"

/-- The choices of a conversion. -/
structure Settings where
  ipFormat : IpFormat := .ipv4
  /-- Are schemas with a name moved to the registry? -/
  extract : Bool := false
  /-- What is put before names that are not absolute. -/
  extractPath : String := "/"
  /-- Are unknown rules skipped? -/
  ignoreUnknownRules : Bool := false
  /-- Are descriptions of unknown types dropped? -/
  ignoreUnknownTypes : Bool := false
  deriving DecidableEq

namespace Settings

def isAbsolute (path : String) : Bool := path.toList.head? = some '/'

/-- **Check settings**: an empty prefix means the root, and any other must be absolute. -/
def validate (s : Settings) : Except SettingsError Settings :=
  if s.extractPath.isEmpty then .ok { s with extractPath := "/" }
  else if isAbsolute s.extractPath then .ok s
  else .error (.invalidExtractPath s.extractPath)

def extractionPath (s : Settings) (name : String) : String :=
  if isAbsolute name then name else s.extractPath ++ name

def toJson (s : Settings) : Json :=
  .object [("ipFormat", .string s.ipFormat.name), ("extract", .bool s.extract),
    ("extractPath", .string s.extractPath), ("ignoreUnknownRules", .bool s.ignoreUnknownRules),
    ("ignoreUnknownTypes", .bool s.ignoreUnknownTypes)]

end Settings
end Schemata
