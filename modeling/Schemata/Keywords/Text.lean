import Schemata.Keywords.Rules
import Schemata.Pattern
/-!
# Strings and binary data

A string's rules limit its length, or say what it looks like by a pattern or a format.  Flags that
would change the value have no counterpart.  Binary data is a string in a format that tells its
encoding.
-/
namespace Schemata
namespace Keywords

/-! ## Strings -/

def pattern (text : String) : String × Json := ("pattern", .string text)

def format (name : String) : String × Json := ("format", .string name)

/-- The construct that is refused, of the flags that change a string. -/
def refusedStringFlag? (flags : Flags) : Option String :=
  if flags.truncate then some "string.truncate()"
  else if flags.trim then some "string.trim()"
  else if flags.normalize then some "string.normalize()"
  else if flags.insensitive then some "string.insensitive()"
  else none

/-- The text of a pattern rule: a member of its argument, or the argument itself. -/
def patternText (rule : Rule) : Except ConvertError String :=
  if rule.argFlag "invert" then .error (.unsupported "string.regex(..., \x7binvert: true\x7d)")
  else
    match ((rule.argField? "pattern").getD rule.arg).string? with
    | some literal => .ok (Pattern.stripDelimiters literal)
    | none => .error (.notASchema (.ruleWithoutPattern rule.name))

def wantsBytes (flags : Flags) (rule : Rule) : Bool :=
  flags.byteAligned || rule.argFlag "byteAligned"

def wantsPadding (rule : Rule) : Bool :=
  ((rule.argField? "paddingRequired").map Json.truthy).getD true

/-- The keyword of a rule that says what a string looks like, and its value; nothing for another
rule. -/
def look? (settings : Settings) (flags : Flags) (rule : Rule) :
    Option (Except ConvertError (String × Json)) :=
  match rule.name with
  | "alphanum" => some (.ok (pattern (Pattern.alphanum.pick flags.letterCase)))
  | "token" => some (.ok (pattern (Pattern.token.pick flags.letterCase)))
  | "hex" => some (.ok (pattern (if wantsBytes flags rule then Pattern.hexBytes else Pattern.hex)))
  | "base64" =>
    some (.ok (pattern (if wantsPadding rule then Pattern.base64 else Pattern.base64Unpadded)))
  | "dataUri" => some (.ok (pattern Pattern.dataUri))
  | "ip" => some (.ok (format settings.ipFormat.name))
  | "uri" => some (.ok (format "uri"))
  | "guid" | "uuid" => some (.ok (format "uuid"))
  | "hostname" => some (.ok (format "hostname"))
  | "email" => some (.ok (format "email"))
  | "isoDate" => some (.ok (format "date-time"))
  | "regex" | "pattern" => some ((patternText rule).map pattern)
  | _ => none

def applyStringRule (settings : Settings) (flags : Flags) (f : Fragment) (rule : Rule) : Outcome :=
  match applyLimit? lengthLimits "string" f rule with
  | some outcome => outcome
  | none =>
    match look? settings flags rule with
    | some look => look.map fun m => f.insert m.1 m.2
    | none => skipRule settings "string" f rule

/-- **A string**: its type, then its rules in order. -/
def applyString (settings : Settings) (t : Traits) (f : Fragment) : Outcome :=
  let f := f.insert "type" (.string "string")
  match refusedStringFlag? t.flags with
  | some construct => .error (.unsupported construct)
  | none => t.rules.foldlM (applyStringRule settings t.flags) f

/-! ## Binary data -/

def binaryFormat : Option String → Except ConvertError String
  | none => .ok "binary"
  | some encoding =>
    if encoding = "base64" then .ok "byte"
    else .error (.unsupported ("binary.encoding('" ++ encoding ++ "')"))

/-- **Binary data**: its type and format, then its rules in order. -/
def applyBinary (settings : Settings) (t : Traits) (f : Fragment) : Outcome := do
  let name ← binaryFormat t.flags.encoding
  let f := f.insert "type" (.string "string")
  let f := f.insert "format" (.string name)
  t.rules.foldlM (applyLimit settings lengthLimits "binary") f

end Keywords
end Schemata
