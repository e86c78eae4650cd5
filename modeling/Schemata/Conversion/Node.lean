import Schemata.Conversion.Summary
/-!
# Converting a description

A node is converted in three steps.  First come the keywords that its own traits give and that
decide whether it is extracted.  Then the remaining common keywords and those of its kind or
handler, which converts the descriptions below.  Last, an extracted node is registered and leaves a
reference.  A node whose path is taken is not converted again.

The recursion is on the description.  Only a handler can ask for the conversion of a description
from elsewhere; `other` converts those, so that a description without handlers is converted by
structural recursion alone.
-/
namespace Schemata

namespace Traits

/-- The keywords that are set before extraction is decided: null, allowed values and the metadata of
the node. -/
def leadingFragment (t : Traits) : Fragment :=
  let f : Fragment := {}
  let f := if t.valids.any Json.isNull then f.insert "nullable" (.bool true) else f
  let f :=
    if t.flags.allowOnly && !t.valids.isEmpty then
      f.insert "enum" (.array (t.valids.filter fun value => !value.isNull))
    else f
  match t.metas with
  | some fragments => f.modifyBag fun b => fragments.foldl Bag.merge b
  | none => f

/-- The values of examples; what is not wrapped in an object is left out. -/
def exampleValues (examples : List Json) : List Json := examples.filterMap fun e => e.field? "value"

def commonFragment (t : Traits) (f : Fragment) : Fragment :=
  let f := f.applyOption (fun f notes => f.modifyBag fun b => b.pushNotes notes) t.notes
  let f := f.applyOption (fun f tags => f.modifyBag fun b => b.pushTags tags) t.tags
  let f := f.applyOption (fun f unit => f.modifyBag fun b => b.setUnit unit) t.unit
  let f := f.applyOption (fun f examples => f.insert "examples" (.array (exampleValues examples)))
    t.examples
  let f := f.applyOption (fun f label => f.insert "title" (.string label)) t.label
  let f := f.applyOption (fun f text => f.insert "description" (.string text)) t.description
  f.applyOption (fun f value => f.insert "default" value) t.flags.default

end Traits

/-- The path under which a node is registered, when it is extracted. -/
def Settings.extraction? (s : Settings) (f : Fragment) : Option String :=
  if s.extract then (f.bag.bind Bag.extractName?).map s.extractionPath else none

/-- A conversion without extraction, whose result is the written fragment. -/
def Conversion.inline (convert : Conversion (Option Fragment)) : Conversion (Option Json) := do
  let result ← convert
  return result.map Fragment.toJson

/-- **A conversion whose result is registered** under a path and replaced by a reference.  It does
not run when the path is taken; when the path was taken on the way, what was registered there
stays. -/
def Conversion.extracted (path : String) (convert : Conversion (Option Fragment)) :
    Conversion (Option Json) := do
  if ← Conversion.isTaken path then return some (Json.reference path)
  match ← convert with
  | none => return none
  | some f =>
    Conversion.register path f.takeExtract.2.toJson
    return some (Json.reference path)

/-- **A node** whose descriptions below and elsewhere are converted by `below` and `other`. -/
def Description.convertNode (o : Options) (other : Description → Conversion (Option Json))
    (node : Description) (below : Below) : Conversion (Option Json) :=
  match o.resolve node.typeName with
  | none => if o.ignoreUnknownTypes then pure none else Conversion.fail (.unknownType node.typeName)
  | some handling =>
    let leading := node.leadingFragment
    let f := node.commonFragment leading
    let ofKind (kind : Kind) (f : Fragment) : Conversion Fragment :=
      kind.convert o.toSettings node.toTraits below f
    let convert : Conversion (Option Fragment) :=
      match handling with
      | .inl handler => (handler o.toSettings node f).run ofKind other
      | .inr kind => some <$> ofKind kind f
    match o.toSettings.extraction? leading with
    | some path => Conversion.extracted path convert
    | none => Conversion.inline convert

namespace Description

variable (o : Options) (other : Description → Conversion (Option Json))

mutual

def convertWith : Description → Conversion (Option Json)
  | ⟨traits, items, orderedItems, children, patterns, alternatives⟩ =>
    convertNode o other ⟨traits, items, orderedItems, children, patterns, alternatives⟩
      { items := convertItems? items
        orderedItems := convertItems? orderedItems
        children := convertChildren? children
        patterns := convertPatterns? patterns
        branches := convertBranches? alternatives }

def convertItems? : Option (List Description) → Conversion (List Json)
  | none => pure []
  | some ds => convertItems ds

def convertItems : List Description → Conversion (List Json)
  | [] => pure []
  | d :: ds => do
    let schema ← convertWith d
    let schemas ← convertItems ds
    return schema.toList ++ schemas

/-- The conversion of children, if there is a list of them. -/
def convertChildren? :
    Option (List (String × Description)) → Conversion (Option (List ConvertedChild))
  | none => pure none
  | some cs => some <$> convertChildren cs

/-- Convert children, without those that are forbidden, which are not looked at, and those that are
dropped. -/
def convertChildren : List (String × Description) → Conversion (List ConvertedChild)
  | [] => pure []
  | (key, d) :: cs =>
    if d.presence = .forbidden then convertChildren cs
    else do
      let schema ← convertWith d
      let children ← convertChildren cs
      let child := schema.map fun s => ConvertedChild.mk key (d.presence = .required) s
      return child.toList ++ children

/-- The conversion of key patterns, if there is a list of them. -/
def convertPatterns? :
    Option (List (PatternRule Description)) → Conversion (Option (Members Json))
  | none => pure none
  | some ps => some <$> convertPatterns ps

/-- Convert key patterns: the key is read before the rule is converted. -/
def convertPatterns : List (PatternRule Description) → Conversion (Members Json)
  | [] => pure []
  | ⟨regex, schema, rule⟩ :: ps => do
    let key ← Conversion.lift (Keywords.keyPattern (schema.map toTraits) regex)
    let value ← convertWith rule
    let members ← convertPatterns ps
    return (value.map fun v => (key, v)).toList ++ members

def convertBranches? : Option (List (Alternative Description)) → Conversion (List Json)
  | none => pure []
  | some bs => convertBranches bs

/-- Convert branches, without those that are dropped; a conditional one has no counterpart. -/
def convertBranches : List (Alternative Description) → Conversion (List Json)
  | [] => pure []
  | .conditional _ :: _ => Conversion.fail (.unsupported "alternatives.when()")
  | .schema d :: bs => do
    let schema ← convertWith d
    let schemas ← convertBranches bs
    return schema.toList ++ schemas

end

def conversionsBelow (node : Description) : Below where
  items := convertItems? o other node.items
  orderedItems := convertItems? o other node.orderedItems
  children := convertChildren? o other node.children
  patterns := convertPatterns? o other node.patterns
  branches := convertBranches? o other node.alternatives

/-- A description is converted by its node and the conversions below it. -/
theorem convertWith_eq (node : Description) :
    convertWith o other node = convertNode o other node (conversionsBelow o other node) := by
  cases node
  rw [convertWith]
  rfl

/-- Convert a description from elsewhere, which may nest so many more; `bottom` converts those that are
nested deeper. -/
def convertNested (bottom : Description → Conversion (Option Json)) :
    Nat → Description → Conversion (Option Json)
  | 0 => bottom
  | n + 1 => convertWith o (convertNested bottom n)

end Description

/-- How the handlers of a description have descriptions from elsewhere converted. -/
def Options.elsewhere (o : Options) : Description → Conversion (Option Json) :=
  Description.convertNested o (fun _ => Conversion.fail o.tooDeep) o.nesting

namespace Description

/-- **Convert a description.** -/
def convert (o : Options) (node : Description) : Conversion (Option Json) :=
  convertWith o o.elsewhere node

/-- **A node of a kind**, over the keywords that are there and without those that are common to all
kinds. -/
def convertAs (o : Options) (kind : Kind) (node : Description) (f : Fragment) : Conversion Fragment :=
  kind.convert o.toSettings node.toTraits (conversionsBelow o o.elsewhere node) f

end Description
end Schemata
