import Schemata.Keywords.Rules
import Schemata.Conversion.Basic
import Schemata.Pattern
/-!
# Arrays, objects and alternations

These kinds also use the descriptions below their node.  How those are converted is not known here:
`Below` holds their conversions, which have not run yet, and each kind says which of them it runs
and in what order.
-/
namespace Schemata

/-- A child that was converted. -/
structure ConvertedChild where
  key : String
  isRequired : Bool
  schema : Json

/-- The conversions of the descriptions below a node, without those that are dropped. -/
structure Below where
  items : Conversion (List Json)
  orderedItems : Conversion (List Json)
  /-- Nothing when no children are declared. -/
  children : Conversion (Option (List ConvertedChild))
  /-- Under the patterns of the keys; nothing when no patterns are declared. -/
  patterns : Conversion (Option (Members Json))
  branches : Conversion (List Json)

namespace Keywords

/-! ## Arrays -/

def applyArrayRule (settings : Settings) (f : Fragment) (rule : Rule) : Outcome :=
  match applyLimit? itemLimits "array" f rule with
  | some outcome => outcome
  | none =>
    if rule.name = "unique" then
      if rule.argFlag "ignoreUndefined" then
        .error (.unsupported "array.unique(..., \x7bignoreUndefined: true\x7d)")
      else if rule.argFlag "comparator" then .error (.unsupported "array.unique(comparator)")
      else .ok (f.insert "uniqueItems" (.bool true))
    else skipRule settings "array" f rule

/-- An array before its items are converted. -/
def applyArrayTraits (settings : Settings) (t : Traits) (f : Fragment) : Outcome :=
  let f := f.insert "type" (.string "array")
  if t.flags.sparse then .error (.unsupported "array.sparse()")
  else t.rules.foldlM (applyArrayRule settings) f

def collapse : List Json → Option Json
  | [] => none
  | [schema] => some schema
  | schemas => some (.object [("anyOf", .array schemas)])

/-- Items by place take the keyword, and those for any place are what may follow them. -/
def insertItems (anywhere byPlace : List Json) (f : Fragment) : Fragment :=
  if byPlace.isEmpty then f.insertOption "items" (collapse anywhere)
  else
    let f := f.insert "items" (.array byPlace)
    f.insertOption "additionalItems" (collapse anywhere)

/-- **An array**: items for any place are converted before those by place. -/
def applyArray (settings : Settings) (t : Traits) (below : Below) (f : Fragment) :
    Conversion Fragment := do
  let f ← Conversion.lift (applyArrayTraits settings t f)
  let anywhere ← below.items
  let byPlace ← below.orderedItems
  return insertItems anywhere byPlace f

/-! ## Objects -/

def isAnyString (key : Traits) : Bool :=
  key.typeName = "string" && key.rules.isEmpty && key.valids.isEmpty && !key.flags.allowOnly
    && !key.flags.insensitive && !key.flags.trim && !key.flags.truncate && !key.flags.normalize
    && key.flags.letterCase.isNone

/-- The pattern of a key: a description of it comes before a regular expression. -/
def keyPattern (schema : Option Traits) (regex : Option String) : Except ConvertError String :=
  match schema, regex with
  | some key, _ =>
    if isAnyString key then .ok Pattern.anyKey
    else .error (.unsupported "object.pattern(schema)")
  | none, some literal => .ok (Pattern.stripDelimiters literal)
  | none, none => .error (.notASchema .keyPatternWithoutKey)

/-- Add a dependency: of several keys each needs all others, or one key needs its peers. -/
def addDependency (ms : Members Json) (d : Dependency) : Except ConvertError (Members Json) :=
  if d.relation = "and" then
    .ok (d.peers.foldl (fun ms peer =>
      Members.insert ms peer (.array ((d.peers.filter fun other => other ≠ peer).map .string))) ms)
  else if d.relation = "with" then
    match d.key with
    | some key => .ok (Members.insert ms key (.array (d.peers.map .string)))
    | none => .error (.notASchema .withDependencyWithoutKey)
  else .error (.unsupported ("object dependency:" ++ d.relation))

def applyDependencies (ds? : Option (List Dependency)) (f : Fragment) : Outcome :=
  match ds? with
  | none => .ok f
  | some ds => do
    let table ← ds.foldlM addDependency []
    return f.insert "dependencies" (.object table)

/-- An object before its children are converted. -/
def applyObjectTraits (settings : Settings) (t : Traits) (f : Fragment) : Outcome :=
  let f := f.insert "type" (.string "object")
  let f := f.insertOption "additionalProperties" (t.flags.allowUnknown.map .bool)
  t.rules.foldlM (applyLimit settings propertyLimits "object") f

/-- Children under their keys, as one value. -/
def properties (children : List ConvertedChild) : Json :=
  .object (Members.ofList (children.map fun c => (c.key, c.schema)))

def requiredKeys (children : List ConvertedChild) : List Json :=
  (children.filter ConvertedChild.isRequired).map fun c => .string c.key

/-- A list of keys, unless there are none. -/
def required? (keys : List Json) : Option Json := if keys.isEmpty then none else some (.array keys)

/-- **An object**: children are converted first, then key patterns, then dependencies are read. -/
def applyObject (settings : Settings) (t : Traits) (below : Below) (f : Fragment) :
    Conversion Fragment := do
  let f ← Conversion.lift (applyObjectTraits settings t f)
  let children ← below.children
  let f := f.insertOption "properties" (children.map properties)
  let patterns ← below.patterns
  let f := f.insertOption "patternProperties" (patterns.map fun ps => .object (Members.ofList ps))
  let f ← Conversion.lift (applyDependencies t.dependencies f)
  return f.insertOption "required" (required? ((children.map requiredKeys).getD []))

/-! ## Alternations -/

def defaultCombinator : String := "anyOf"

/-- **An alternation**: no rule is known, and the branches stand under the combinator that the bag
names. -/
def applyAlternatives (settings : Settings) (t : Traits) (branches : Conversion (List Json))
    (f : Fragment) : Conversion Fragment := do
  let (term, f) := f.takeTerm
  Conversion.lift (t.rules.forM (unknownRule settings "alternatives"))
  let schemas ← branches
  return f.insert (term.getD defaultCombinator) (.array schemas)

end Keywords
end Schemata
