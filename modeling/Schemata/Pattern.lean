/-!
# Pattern — regular expressions in the output

The patterns that rules stand for, and the reading of a pattern literal: a slash, the pattern, a
slash, and small letters for flags.  Flags are dropped; the pattern ends at the last slash.
-/
namespace Schemata
namespace Pattern

/-- A pattern that depends on the letter case allowed. -/
structure ByCase where
  insensitive : String
  lower : String
  upper : String

/-- The pattern for a letter case; anything but lower and upper allows both. -/
def ByCase.pick (p : ByCase) (letterCase : Option String) : String :=
  if letterCase = some "lower" then p.lower
  else if letterCase = some "upper" then p.upper
  else p.insensitive

def alphanum : ByCase := ⟨"^[a-zA-Z0-9]+$", "^[a-z0-9]+$", "^[A-Z0-9]+$"⟩

def token : ByCase := ⟨"^[a-zA-Z0-9_]+$", "^[a-z0-9_]+$", "^[A-Z0-9_]+$"⟩

def hex : String := "^[a-fA-F0-9]+$"

def hexBytes : String := "^([a-fA-F0-9]\x7b2\x7d)+$"

def base64 : String :=
  "^([A-Za-z0-9+/]\x7b4\x7d)*" ++
    "([A-Za-z0-9+/]\x7b4\x7d|[A-Za-z0-9+/]\x7b3\x7d=|[A-Za-z0-9+/]\x7b2\x7d==)$"

def base64Unpadded : String :=
  "^(?:[A-Za-z0-9+\\/]\x7b2\x7d[A-Za-z0-9+\\/]\x7b2\x7d)*" ++
  "(?:[A-Za-z0-9+\\/]\x7b2\x7d(==)?|[A-Za-z0-9+\\/]\x7b3\x7d=?)?$"

def dataUri : String := "^data:[\\w+.-]+/[\\w+.-]+;((charset=[\\w-]+|base64),)?(.*)$"

def anyKey : String := "^.*$"

/-! ## Literals -/

def isFlag (c : Char) : Bool := 'a' ≤ c && c ≤ 'z'

/-- The body of a literal: between its first character and the last slash, when both are slashes and
only flags follow. -/
def body? (cs : List Char) : Option (List Char) :=
  match cs with
  | '/' :: cs =>
    match cs.reverse.dropWhile isFlag with
    | '/' :: body => some body.reverse
    | _ => none
  | _ => none

/-- **The pattern of a literal**; what is no literal is a pattern already. -/
def stripDelimiters (literal : String) : String :=
  match body? literal.toList with
  | some body => String.ofList body
  | none => literal

end Pattern
end Schemata
