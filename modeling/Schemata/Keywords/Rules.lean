import Schemata.Conversion.Error
import Schemata.Description.Basic
import Schemata.Fragment.Basic
import Schemata.Json.Printer
import Schemata.Settings.Basic
/-!
# Rules

A kind goes through the rules of a node in their order.  Each of them acts on the fragment that those
before it left: it sets keywords, or is skipped and leaves the fragment as it is, or is refused, and
then the node is refused.
-/
namespace Schemata
namespace Keywords

/-- What becomes of a fragment, unless something is refused. -/
abbrev Outcome : Type := Except ConvertError Fragment

/-- A rule nobody knows: skipped or refused, as the settings say. -/
def unknownRule (settings : Settings) (typeName : String) (rule : Rule) :
    Except ConvertError Unit :=
  if settings.ignoreUnknownRules then .ok () else .error (.unknownRule typeName rule.name)

/-- Such a rule leaves the fragment as it is, if it is skipped. -/
def skipRule (settings : Settings) (typeName : String) (f : Fragment) (rule : Rule) : Outcome :=
  (unknownRule settings typeName rule).map fun _ => f

/-- How a rule with its argument is named when it is refused. -/
def refusal (typeName : String) (rule : Rule) : ConvertError :=
  .unsupported (typeName ++ "." ++ rule.name ++ "(" ++ rule.arg.render ++ ")")

/-- The argument of a rule, which must be a number; a reference to another value is none. -/
def numberArg (typeName : String) (rule : Rule) : Except ConvertError Json :=
  match rule.arg with
  | .number x => .ok (.number x)
  | _ => .error (refusal typeName rule)

/-- The keywords for the least and the most of something. -/
structure LimitNames where
  least : String
  most : String

def lengthLimits : LimitNames := ⟨"minLength", "maxLength"⟩

def itemLimits : LimitNames := ⟨"minItems", "maxItems"⟩

def propertyLimits : LimitNames := ⟨"minProperties", "maxProperties"⟩

/-- A rule that limits a size; nothing for another rule. -/
def applyLimit? (names : LimitNames) (typeName : String) (f : Fragment) (rule : Rule) :
    Option Outcome :=
  if rule.name = "min" then
    some ((numberArg typeName rule).map fun n => f.insert names.least n)
  else if rule.name = "max" then
    some ((numberArg typeName rule).map fun n => f.insert names.most n)
  else if rule.name = "length" then
    some ((numberArg typeName rule).map fun n => (f.insert names.least n).insert names.most n)
  else none

/-- A rule where only limits are known. -/
def applyLimit (settings : Settings) (names : LimitNames) (typeName : String) (f : Fragment)
    (rule : Rule) : Outcome :=
  (applyLimit? names typeName f rule).getD (skipRule settings typeName f rule)

end Keywords
end Schemata
