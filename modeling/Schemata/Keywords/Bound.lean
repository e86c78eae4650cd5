import Schemata.Keywords.Rules
/-!
# Numbers and their bounds

A limit rule sets a bound as it is written.  A rule that merely implies a bound, such as being
positive, tightens: the stricter of the bound that stands and the implied edge remains, and where
they are equal the edge.  Both are rounded to binary floating-point numbers to be compared.  So the
rules of a number act on the fragment one after the other.
-/
namespace Schemata
namespace Keywords

/-- The side from which a bound limits. -/
inductive Side where
  | lower
  | upper
  deriving DecidableEq

/-- Is a bound strictly stricter than an edge, both rounded? -/
def Side.isStricter : Side → Number → Number → Bool
  | lower, x, edge => edge.nearest.isLess x.nearest
  | upper, x, edge => x.nearest.isLess edge.nearest

/-- An edge as a number. -/
def edgeNumber (edge : Nat) : Number := .natural (UInt64.ofNat edge)

def largestPort : Nat := 65535

/-- Does a keyword hold a stricter bound than the edge? -/
def holdsStricter (f : Fragment) (keyword : String) (edge : Nat) (side : Side) : Bool :=
  match f.get? keyword with
  | some (.number x) => side.isStricter x (edgeNumber edge)
  | _ => false

/-- Set a bound to an edge unless a stricter one stands. -/
def tighten (f : Fragment) (keyword : String) (edge : Nat) (side : Side) : Fragment :=
  if holdsStricter f keyword edge side then f
  else f.insert keyword (.number (edgeNumber edge))

def boundKeyword? (rule : String) : Option String :=
  match rule with
  | "greater" => some "exclusiveMinimum"
  | "less" => some "exclusiveMaximum"
  | "min" => some "minimum"
  | "max" => some "maximum"
  | "multiple" => some "multipleOf"
  | _ => none

/-- What a rule without an argument does to a number; nothing for another rule. -/
def impliedBy? (rule : String) : Option (Fragment → Fragment) :=
  match rule with
  | "integer" => some fun f => f.insert "type" (.string "integer")
  | "precision" =>
    some fun f => (f.insert "type" (.string "number")).insert "format" (.string "double")
  | "positive" => some fun f => tighten f "exclusiveMinimum" 0 .lower
  | "negative" => some fun f => tighten f "exclusiveMaximum" 0 .upper
  | "port" => some fun f =>
      let whole := f.insert "type" (.string "integer")
      tighten (tighten whole "minimum" 0 .lower) "maximum" largestPort .upper
  | _ => none

def applyNumberRule (settings : Settings) (f : Fragment) (rule : Rule) :
    Outcome :=
  match boundKeyword? rule.name with
  | some keyword => (numberArg "number" rule).map fun n => f.insert keyword n
  | none =>
    match impliedBy? rule.name with
    | some apply => .ok (apply f)
    | none => skipRule settings "number" f rule

/-- **A number**: its type, then its rules in order. -/
def applyNumber (settings : Settings) (t : Traits) (f : Fragment) : Outcome :=
  t.rules.foldlM (applyNumberRule settings) (f.insert "type" (.string "number"))

end Keywords
end Schemata
