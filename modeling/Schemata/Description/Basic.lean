import Schemata.Json.Basic
/-!
# Description — what a schema says about a value

A description is a tree.  Each node has *traits*: a type name, rules in order, flags, allowed values
and metadata.  Below a node stand further descriptions: the items of an array, the children and key
patterns of an object, the branches of an alternation.  A list that is absent is not the same as an
empty one.
-/
namespace Schemata

/-- A named rule with its argument; null when it has none. -/
structure Rule where
  name : String
  arg : Json := .null
  deriving DecidableEq

namespace Rule

def argField? (r : Rule) (key : String) : Option Json := r.arg.field? key

def argFlag (r : Rule) (key : String) : Bool := (r.argField? key).any Json.truthy

end Rule

/-- Whether an object must, must not or may have a child. -/
inductive Presence where
  | required
  | forbidden
  | optional
  deriving DecidableEq

namespace Presence

def name : Presence → String
  | required => "required"
  | forbidden => "forbidden"
  | optional => "optional"

def ofName (s : String) : Presence :=
  if s = "required" then required else if s = "forbidden" then forbidden else optional

end Presence

/-- Option flags of a node; flags without a meaning here are kept in `other`. -/
structure Flags where
  presence : Option Presence := none
  /-- Only the listed values are allowed. -/
  allowOnly : Bool := false
  /-- The default value, which may be an explicit null. -/
  default : Option Json := none
  /-- Are children that were not declared accepted? -/
  allowUnknown : Option Bool := none
  sparse : Bool := false
  encoding : Option String := none
  timestamp : Bool := false
  truncate : Bool := false
  trim : Bool := false
  normalize : Bool := false
  insensitive : Bool := false
  /-- Lower or upper case only. -/
  letterCase : Option String := none
  byteAligned : Bool := false
  other : Members Json := []
  deriving DecidableEq

/-- A dependency between keys of an object. -/
structure Dependency where
  relation : String
  key : Option String := none
  peers : List String := []
  deriving DecidableEq

/-- A branch that depends on a condition. -/
structure Conditional where
  reference : Option Json := none
  is : Option Json := none
  consequent : Option Json := none
  otherwise : Option Json := none
  deriving DecidableEq

/-- What a node says for itself, without the descriptions below it. -/
structure Traits where
  /-- The type name decides how the node is converted. -/
  typeName : String := ""
  rules : List Rule := []
  flags : Flags := {}
  /-- Allowed values, null among them when null is allowed. -/
  valids : List Json := []
  /-- Metadata fragments, later over earlier. -/
  metas : Option (List (Members Json)) := none
  notes : Option (List String) := none
  tags : Option (List String) := none
  unit : Option String := none
  /-- Examples, each inside an object under `value`. -/
  examples : Option (List Json) := none
  label : Option String := none
  description : Option String := none
  dependencies : Option (List Dependency) := none
  /-- Values that count as true. -/
  truthy : Option (List Json) := none
  /-- Values that count as false. -/
  falsy : Option (List Json) := none
  deriving DecidableEq

/-- A child whose key matches a pattern: a regular expression, or a description of the key. -/
structure PatternRule (α : Type) where
  regex : Option String := none
  schema : Option α := none
  rule : α

/-- A branch of an alternation: a description, or something that depends on a condition. -/
inductive Alternative (α : Type) where
  | schema (branch : α)
  | conditional (branch : Conditional)

/-- **A schema description.** -/
structure Description extends Traits where
  /-- Types of array items at any place. -/
  items : Option (List Description) := none
  /-- Types of array items by place. -/
  orderedItems : Option (List Description) := none
  /-- Children of an object in order of declaration; a key may stand more than once. -/
  children : Option (List (String × Description)) := none
  /-- Children of an object by key pattern. -/
  patterns : Option (List (PatternRule Description)) := none
  /-- Branches of an alternation. -/
  alternatives : Option (List (Alternative Description)) := none

namespace Traits

def presence (t : Traits) : Presence := t.flags.presence.getD .optional

end Traits

end Schemata
