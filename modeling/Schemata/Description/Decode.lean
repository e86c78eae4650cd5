import Schemata.Description.Basic
import Schemata.Decode.Record
import Schemata.Json.Reader
/-!
# Reading descriptions

One set of rules reads a description from a text and from a value.  The two differ in little: a text
may repeat a child, counts its levels, and reads each branch of an alternation as a value first.
-/
namespace Schemata

/-! ## Rules, flags, dependencies -/

namespace Rule

/-- The fields of a rule. -/
inductive Field where
  | name
  | arg
  deriving DecidableEq

def record : Record Field Rule where
  title := "struct Rule"
  fields := [.name, .arg]
  name
    | .name => "name"
    | .arg => "arg"
  field? s := if s = "name" then some .name else if s = "arg" then some .arg else none
  isRequired f := f = .name
  read medium f s :=
    match f with
    | .name => do
      let name ← Decode.string s
      return fun r => { r with name }
    | .arg => do
      let arg ← Decode.json medium s
      return fun r => { r with arg }

end Rule

namespace Flags

/-- The flags with a meaning. -/
inductive Field where
  | presence
  | allowOnly
  | default
  | allowUnknown
  | sparse
  | encoding
  | timestamp
  | truncate
  | trim
  | normalize
  | insensitive
  | letterCase
  | byteAligned
  deriving DecidableEq

namespace Field

def all : List Field :=
  [presence, allowOnly, default, allowUnknown, sparse, encoding, timestamp, truncate, trim,
   normalize, insensitive, letterCase, byteAligned]

def name : Field → String
  | presence => "presence"
  | allowOnly => "allowOnly"
  | default => "default"
  | allowUnknown => "allowUnknown"
  | sparse => "sparse"
  | encoding => "encoding"
  | timestamp => "timestamp"
  | truncate => "truncate"
  | trim => "trim"
  | normalize => "normalize"
  | insensitive => "insensitive"
  | letterCase => "case"
  | byteAligned => "byteAligned"

/-- The flag under a name; two flags have a second name. -/
def ofName? (s : String) : Option Field :=
  if s = "only" then some allowOnly
  else if s = "unknown" then some allowUnknown
  else all.find? fun f => f.name = s

end Field

/-- An on/off flag takes any value that counts as set. -/
def switch (medium : Medium) (s : Source) : Decoded Bool := (Decode.json medium s).map Json.truthy

/-- How flags are read: only from an object, and unknown ones are kept. -/
def record : Record Field Flags where
  title := "struct Flags"
  fields := Field.all
  name := Field.name
  field? := Field.ofName?
  isRequired _ := false
  keep := some fun name value f => { f with other := Members.insert f.other name value }
  positional := false
  read medium f s :=
    match f with
    | .presence => do
      let presence ←
        Decode.optional (Decode.choice medium fun name => .ok (Presence.ofName name)) s
      return fun f => { f with presence }
    | .allowOnly => do
      let allowOnly ← switch medium s
      return fun f => { f with allowOnly }
    | .default => do
      let value ← Decode.json medium s
      return fun f => { f with default := some value }
    | .allowUnknown => do
      let allowUnknown ← Decode.optional Decode.boolean s
      return fun f => { f with allowUnknown }
    | .sparse => do
      let sparse ← switch medium s
      return fun f => { f with sparse }
    | .encoding => do
      let encoding ← Decode.optional Decode.string s
      return fun f => { f with encoding }
    | .timestamp => do
      let timestamp ← switch medium s
      return fun f => { f with timestamp }
    | .truncate => do
      let truncate ← switch medium s
      return fun f => { f with truncate }
    | .trim => do
      let trim ← switch medium s
      return fun f => { f with trim }
    | .normalize => do
      let normalize ← switch medium s
      return fun f => { f with normalize }
    | .insensitive => do
      let insensitive ← switch medium s
      return fun f => { f with insensitive }
    | .letterCase => do
      let letterCase ← Decode.optional Decode.string s
      return fun f => { f with letterCase }
    | .byteAligned => do
      let byteAligned ← switch medium s
      return fun f => { f with byteAligned }

end Flags

namespace Dependency

/-- The fields of a dependency. -/
inductive Field where
  | relation
  | key
  | peers
  deriving DecidableEq

def record : Record Field Dependency where
  title := "struct Dependency"
  fields := [.relation, .key, .peers]
  name
    | .relation => "type"
    | .key => "key"
    | .peers => "peers"
  field? s :=
    if s = "type" || s = "rel" then some .relation
    else if s = "key" then some .key
    else if s = "peers" then some .peers
    else none
  isRequired f := f = .relation
  read medium f s :=
    match f with
    | .relation => do
      let relation ← Decode.string s
      return fun d => { d with relation }
    | .key => do
      let key ← Decode.optional Decode.string s
      return fun d => { d with key }
    | .peers => do
      let peers ← Decode.sequence medium (fun _ => Decode.string) s
      return fun d => { d with peers }

end Dependency

/-! ## Key patterns and branches -/

namespace PatternRule

/-- The fields of a key pattern. -/
inductive Field where
  | regex
  | schema
  | rule
  deriving DecidableEq

/-- How a key pattern is read, given how a description is. -/
def record {α : Type} (description : Medium → Source → Decoded α) :
    Record Field (PatternRule α) where
  title := "struct PatternRule"
  fields := [.regex, .schema, .rule]
  name
    | .regex => "regex"
    | .schema => "schema"
    | .rule => "rule"
  field? s :=
    if s = "regex" then some .regex
    else if s = "schema" then some .schema
    else if s = "rule" then some .rule
    else none
  isRequired f := f = .rule
  read medium f s :=
    match f with
    | .regex => do
      let regex ← Decode.optional Decode.string s
      return fun p => { p with regex }
    | .schema => do
      let schema ← Decode.optional (description medium) s
      return fun p => { p with schema }
    | .rule => do
      let rule ← description medium s
      return fun p => { p with rule }

end PatternRule

namespace Conditional

def keys : List String := ["ref", "is", "then", "otherwise"]

def part? (members : Members Json) (key : String) : Option Json :=
  (Members.get? members key).filter fun value => !value.isNull

def ofMembers (members : Members Json) : Conditional where
  reference := part? members "ref"
  is := part? members "is"
  consequent := part? members "then"
  otherwise := part? members "otherwise"

end Conditional

namespace Alternative

/-- A branch from its value: whatever has a type is a description, and reports its own problems. -/
def ofJson {α : Type} (description : Source → Decoded α) (value : Json) :
    Decoded (Alternative α) :=
  match value.members? with
  | none => .error .alternativeNotObject
  | some members =>
    if Members.contains members "type" then (description (Source.ofJson value)).map schema
    else if Conditional.keys.any (Members.contains members) then
      .ok (conditional (Conditional.ofMembers members))
    else .error .alternativeUndecided

end Alternative

/-! ## Descriptions -/

namespace Description

/-- The fields of a description. -/
inductive Field where
  | typeName
  | rules
  | flags
  | valids
  | metas
  | notes
  | tags
  | unit
  | examples
  | label
  | description
  | items
  | orderedItems
  | children
  | patterns
  | dependencies
  | alternatives
  | truthy
  | falsy
  deriving DecidableEq

namespace Field

def all : List Field :=
  [typeName, rules, flags, valids, metas, notes, tags, unit, examples, label, description, items,
   orderedItems, children, patterns, dependencies, alternatives, truthy, falsy]

def name : Field → String
  | typeName => "type"
  | rules => "rules"
  | flags => "flags"
  | valids => "valids"
  | metas => "meta"
  | notes => "notes"
  | tags => "tags"
  | unit => "unit"
  | examples => "examples"
  | label => "label"
  | description => "description"
  | items => "items"
  | orderedItems => "orderedItems"
  | children => "children"
  | patterns => "patterns"
  | dependencies => "dependencies"
  | alternatives => "alternatives"
  | truthy => "truthy"
  | falsy => "falsy"

def ofName? (s : String) : Option Field := all.find? fun f => f.name = s

end Field

def childrenTitle : String := "a map of child keys to schema descriptions"

def values (medium : Medium) : Source → Decoded (Option (List Json)) :=
  Decode.optional (Decode.sequence medium Decode.json)

def strings (medium : Medium) : Source → Decoded (Option (List String)) :=
  Decode.optional (Decode.sequence medium fun _ => Decode.string)

/-- How a description is read, given how the descriptions below it are. -/
def record (below : Medium → Source → Decoded Description) : Record Field Description where
  title := "struct SchemaNode"
  fields := Field.all
  name := Field.name
  field? := Field.ofName?
  isRequired f := f = .typeName
  read medium f s :=
    match f with
    | .typeName => do
      let typeName ← Decode.string s
      return fun d => { d with typeName }
    | .rules => do
      let rules ← Decode.sequence medium (fun m => Rule.record.decode m { name := "" }) s
      return fun d => { d with rules }
    | .flags => do
      let flags ← Flags.record.decode medium {} s
      return fun d => { d with flags }
    | .valids => do
      let valids ← Decode.sequence medium Decode.json s
      return fun d => { d with valids }
    | .metas => do
      let metas ← Decode.optional (Decode.sequence medium Decode.members) s
      return fun d => { d with metas }
    | .notes => do
      let notes ← strings medium s
      return fun d => { d with notes }
    | .tags => do
      let tags ← strings medium s
      return fun d => { d with tags }
    | .unit => do
      let unit ← Decode.optional Decode.string s
      return fun d => { d with unit }
    | .examples => do
      let examples ← values medium s
      return fun d => { d with examples }
    | .label => do
      let label ← Decode.optional Decode.string s
      return fun d => { d with label }
    | .description => do
      let description ← Decode.optional Decode.string s
      return fun d => { d with description }
    | .items => do
      let items ← Decode.optional (Decode.sequence medium below) s
      return fun d => { d with items }
    | .orderedItems => do
      let orderedItems ← Decode.optional (Decode.sequence medium below) s
      return fun d => { d with orderedItems }
    | .children => do
      let children ← Decode.optional (Decode.mapping medium childrenTitle below) s
      return fun d => { d with children }
    | .patterns => do
      let pattern m := (PatternRule.record below).decode m { rule := {} }
      let patterns ← Decode.optional (Decode.sequence medium pattern) s
      return fun d => { d with patterns }
    | .dependencies => do
      let dependency m := Dependency.record.decode m { relation := "" }
      let dependencies ← Decode.optional (Decode.sequence medium dependency) s
      return fun d => { d with dependencies }
    | .alternatives => do
      let alternative m s := do
        let value ← Decode.json m s
        Alternative.ofJson (below .value) value
      let alternatives ← Decode.optional (Decode.sequence medium alternative) s
      return fun d => { d with alternatives }
    | .truthy => do
      let truthy ← values medium s
      return fun d => { d with truthy }
    | .falsy => do
      let falsy ← values medium s
      return fun d => { d with falsy }

def decode : Nat → Medium → Source → Decoded Description
  | 0, _, _ => .error (.flawed .malformed)
  | levels + 1, medium, s => (record (decode levels)).decode medium {} s

/-- **Read a description from a value**; its depth bounds the levels. -/
def ofJson (value : Json) : Decoded Description :=
  decode (value.depth + 1) .value (Source.ofJson value)

/-- **Read a description from a text.** -/
def ofText (text : String) : Decoded Description := do
  let t := SourceText.ofString text
  let d ← decode (Medium.levelLimit + 2) (.text Medium.levelLimit) t.root
  Decoded.ofRead t.checkEnd
  return d

/-- The mark of a schema: an object with a string under `type`. -/
def isMarked (value : Json) : Bool := ((value.field? "type").bind Json.string?).isSome

end Description
end Schemata
