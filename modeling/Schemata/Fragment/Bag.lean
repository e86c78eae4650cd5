import Schemata.Json.Basic
/-!
# Bag — the metadata of a fragment

Metadata passes through to the output, except for five names with a slot of their own.  Notes and
tags grow, the unit is overwritten, and two names speak to the conversion itself: `extract` names a
schema to be registered, `term` names the combinator of an alternation.  Both can be taken out
before the bag is written.
-/
namespace Schemata

/-- Metadata being gathered. -/
structure Bag where
  entries : Members Json := []
  notes : Option (List Json) := none
  tags : Option (List Json) := none
  unit : Option Json := none
  extract : Option Json := none
  term : Option Json := none
  deriving DecidableEq

namespace Bag

/-- The name under which a schema is to be registered. -/
def extractKey : String := "extract"

def termKey : String := "term"

/-- A list as it is; anything else as a list of one. -/
def asList : Json → List Json
  | .array items => items
  | value => [value]

def mergeMember (b : Bag) (name : String) (value : Json) : Bag :=
  if name = extractKey then { b with extract := some value }
  else if name = termKey then { b with term := some value }
  else if name = "notes" then { b with notes := some (asList value) }
  else if name = "tags" then { b with tags := some (asList value) }
  else if name = "unit" then { b with unit := some value }
  else { b with entries := Members.insert b.entries name value }

/-- **Take in a fragment**, its members over those that are there. -/
def merge (b : Bag) (fragment : Members Json) : Bag :=
  fragment.foldl (fun b m => b.mergeMember m.1 m.2) b

def insert (b : Bag) (name : String) (value : Json) : Bag :=
  { b with entries := Members.insert b.entries name value }

def get? (b : Bag) (name : String) : Option Json := Members.get? b.entries name

def pushNotes (b : Bag) (notes : List String) : Bag :=
  { b with notes := some (b.notes.getD [] ++ notes.map .string) }

def pushTags (b : Bag) (tags : List String) : Bag :=
  { b with tags := some (b.tags.getD [] ++ tags.map .string) }

def setUnit (b : Bag) (unit : String) : Bag := { b with unit := some (.string unit) }

/-- The name to register under: a string that is not empty. -/
def extractName? (b : Bag) : Option String :=
  (b.extract.bind Json.string?).filter fun name => !name.isEmpty

/-- Take out the name to register under, if it is a string. -/
def takeExtract (b : Bag) : Option String × Bag :=
  match b.extract with
  | some (.string name) => (some name, { b with extract := none })
  | _ => (none, b)

def takeTerm (b : Bag) : Option String × Bag :=
  match b.term with
  | some (.string term) => (some term, { b with term := none })
  | _ => (none, b)

def isEmpty (b : Bag) : Bool :=
  b.entries.isEmpty && b.notes.isNone && b.tags.isNone && b.unit.isNone && b.extract.isNone
    && b.term.isNone

def insertSlot (ms : Members Json) (name : String) : Option Json → Members Json
  | some value => Members.insert ms name value
  | none => ms

/-- The members of the written bag: the entries, then the slots. -/
def toMembers (b : Bag) : Members Json :=
  let ms := insertSlot b.entries "notes" (b.notes.map .array)
  let ms := insertSlot ms "tags" (b.tags.map .array)
  let ms := insertSlot ms "unit" b.unit
  let ms := insertSlot ms extractKey b.extract
  insertSlot ms termKey b.term

/-- **The written bag.** -/
def toJson (b : Bag) : Json := .object b.toMembers

end Bag
end Schemata
