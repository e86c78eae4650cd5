import Schemata.Keywords.Rules
import Schemata.Calendar.Reader
/-!
# Booleans and dates

A boolean knows no rules, and values that merely count as true or false have no counterpart.  A date
is a string in a format of its own; its limits are instants, written in universal time to the
millisecond.
-/
namespace Schemata
namespace Keywords

/-! ## Booleans -/

/-- Is more listed than the literal itself, which always is? -/
def hasAliases (values : Option (List Json)) : Bool := (values.map List.length).getD 0 > 1

/-- **A boolean**: its type, once its rules are skipped. -/
def applyBoolean (settings : Settings) (t : Traits) (f : Fragment) : Outcome :=
  if hasAliases t.truthy then .error (.unsupported "boolean.truthy()")
  else if hasAliases t.falsy then .error (.unsupported "boolean.falsy()")
  else do
    t.rules.forM (unknownRule settings "boolean")
    return f.insert "type" (.string "boolean")

/-! ## Dates -/

/-- The instant a limit names: a text in a form that is known, or whole milliseconds. -/
def limitInstant? : Json → Option Instant
  | .number x => x.int64?.bind Instant.ofMillis?
  | .string text => Instant.read? text
  | _ => none

def dateLimit (rule : Rule) : Except ConvertError Json :=
  match limitInstant? rule.arg with
  | some instant => .ok (.string instant.render)
  | none => .error (refusal "date" rule)

def dateKeyword? (rule : String) : Option String :=
  match rule with
  | "min" => some "formatMinimum"
  | "max" => some "formatMaximum"
  | "greater" => some "formatExclusiveMinimum"
  | "less" => some "formatExclusiveMaximum"
  | _ => none

def applyDateRule (settings : Settings) (f : Fragment) (rule : Rule) : Outcome :=
  match dateKeyword? rule.name with
  | some keyword => (dateLimit rule).map fun limit => f.insert keyword limit
  | none => skipRule settings "date" f rule

/-- **A date**: its type and format, then its rules in order. -/
def applyDate (settings : Settings) (t : Traits) (f : Fragment) : Outcome :=
  let f := f.insert "type" (.string "string")
  let f := f.insert "format" (.string "date-time")
  if t.flags.timestamp then .error (.unsupported "date.timestamp()")
  else t.rules.foldlM (applyDateRule settings) f

end Keywords
end Schemata
