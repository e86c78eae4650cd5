import Schemata.Description.Basic
import Schemata.Json.Printer
/-!
# Writing descriptions

What is empty or absent is left out; of the flags, the on/off ones are always written.  As a value,
an object holds each name once, so a repeated child keeps its first place and its last description;
as a text all children are written.  `gather` makes that one difference.
-/
namespace Schemata

/-- A member that is written when there is something to write. -/
def Members.optional {α : Type} (name : String) (encode : α → Json) : Option α → Members Json
  | some a => [(name, encode a)]
  | none => []

/-- A member that is written unless its list is empty. -/
def Members.unlessEmpty {α : Type} (name : String) (encode : α → Json) (xs : List α) :
    Members Json :=
  if xs.isEmpty then [] else [(name, .array (xs.map encode))]

def Json.ofStrings (xs : List String) : Json := .array (xs.map .string)

/-- A rule; its argument is left out when it is null. -/
def Rule.toJson (r : Rule) : Json :=
  .object ([("name", .string r.name)] ++ if r.arg.isNull then [] else [("arg", r.arg)])

/-- The members of flags: those with a meaning in order, then the others. -/
def Flags.toMembers (f : Flags) : Members Json :=
  Members.optional "presence" (fun p => .string p.name) f.presence
  ++ [("allowOnly", .bool f.allowOnly)]
  ++ Members.optional "default" id f.default
  ++ Members.optional "allowUnknown" .bool f.allowUnknown
  ++ [("sparse", .bool f.sparse)]
  ++ Members.optional "encoding" .string f.encoding
  ++ [("timestamp", .bool f.timestamp), ("truncate", .bool f.truncate), ("trim", .bool f.trim),
      ("normalize", .bool f.normalize), ("insensitive", .bool f.insensitive)]
  ++ Members.optional "case" .string f.letterCase
  ++ [("byteAligned", .bool f.byteAligned)]
  ++ f.other

def Dependency.toJson (d : Dependency) : Json :=
  .object ([("type", .string d.relation)] ++ Members.optional "key" .string d.key
    ++ [("peers", Json.ofStrings d.peers)])

def Conditional.toJson (c : Conditional) : Json :=
  .object (Members.optional "ref" id c.reference ++ Members.optional "is" id c.is
    ++ Members.optional "then" id c.consequent ++ Members.optional "otherwise" id c.otherwise)

namespace Traits

def leadingMembers (gather : Members Json → Members Json) (t : Traits) : Members Json :=
  [("type", .string t.typeName)]
  ++ Members.unlessEmpty "rules" Rule.toJson t.rules
  ++ [("flags", .object (gather t.flags.toMembers))]
  ++ Members.unlessEmpty "valids" id t.valids
  ++ Members.optional "meta" (fun fs => .array (fs.map .object)) t.metas
  ++ Members.optional "notes" Json.ofStrings t.notes
  ++ Members.optional "tags" Json.ofStrings t.tags
  ++ Members.optional "unit" .string t.unit
  ++ Members.optional "examples" .array t.examples
  ++ Members.optional "label" .string t.label
  ++ Members.optional "description" .string t.description

def dependencyMembers (t : Traits) : Members Json :=
  Members.optional "dependencies" (fun ds => .array (ds.map Dependency.toJson)) t.dependencies

def trailingMembers (t : Traits) : Members Json :=
  Members.optional "truthy" .array t.truthy ++ Members.optional "falsy" .array t.falsy

end Traits

namespace Description

variable (gather : Members Json → Members Json)

mutual

def encode : Description → Json
  | ⟨traits, items, orderedItems, children, patterns, alternatives⟩ =>
    .object (traits.leadingMembers gather
      ++ encodeItems? "items" items
      ++ encodeItems? "orderedItems" orderedItems
      ++ encodeChildren? children
      ++ encodePatterns? patterns
      ++ traits.dependencyMembers
      ++ encodeBranches? alternatives
      ++ traits.trailingMembers)

/-- A member with items, if there is a list of them. -/
def encodeItems? (name : String) : Option (List Description) → Members Json
  | none => []
  | some ds => [(name, .array (encodeItems ds))]

def encodeItems : List Description → List Json
  | [] => []
  | d :: ds => encode d :: encodeItems ds

/-- The member with the children, if there is a list of them. -/
def encodeChildren? : Option (List (String × Description)) → Members Json
  | none => []
  | some cs => [("children", .object (gather (encodeChildren cs)))]

def encodeChildren : List (String × Description) → Members Json
  | [] => []
  | (key, d) :: cs => (key, encode d) :: encodeChildren cs

/-- The member with the key patterns, if there is a list of them. -/
def encodePatterns? : Option (List (PatternRule Description)) → Members Json
  | none => []
  | some ps => [("patterns", .array (encodePatterns ps))]

def encodePatterns : List (PatternRule Description) → List Json
  | [] => []
  | ⟨regex, schema, rule⟩ :: ps =>
    let key := Members.optional "regex" .string regex ++ encodeSchema? schema
    .object (key ++ [("rule", encode rule)])
      :: encodePatterns ps

/-- The member with the description of a key, if there is one. -/
def encodeSchema? : Option Description → Members Json
  | none => []
  | some d => [("schema", encode d)]

/-- The member with the branches, if there is a list of them. -/
def encodeBranches? : Option (List (Alternative Description)) → Members Json
  | none => []
  | some bs => [("alternatives", .array (encodeBranches bs))]

def encodeBranches : List (Alternative Description) → List Json
  | [] => []
  | .schema d :: bs => encode d :: encodeBranches bs
  | .conditional c :: bs => c.toJson :: encodeBranches bs

end

/-- **The value of a description.** -/
def toJson (d : Description) : Json := encode Members.ofList d

/-- **The text of a description.** -/
def toText (d : Description) : String := (encode id d).render

end Description
end Schemata
