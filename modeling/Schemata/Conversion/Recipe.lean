import Schemata.Conversion.Node
import Schemata.Description.Decode
import Schemata.Fragment.Edit
/-!
# Recipe — a handler given as data

A recipe edits the fragment, may hand it to a kind, may convert a description of its own and keep
the result as a keyword, edits again, and then fails, drops the node or finishes.
-/
namespace Schemata

/-- A handler given as data; every part may be left out. -/
structure Recipe where
  before : List Fragment.Edit := []
  /-- The type name of the kind that converts the node. -/
  delegate : Option String := none
  /-- A keyword and the description whose schema it holds. -/
  nested : Option (String × Json) := none
  /-- The keyword that holds the format of IP addresses. -/
  ipFormatAs : Option String := none
  after : List Fragment.Edit := []
  /-- The construct that is refused. -/
  fail : Option String := none
  drop : Bool := false

namespace Recipe

/-- Hand the fragment to the kind, if one is named. -/
def delegating (r : Recipe) (f : Fragment) (next : Fragment → Handling) : Handling :=
  match r.delegate with
  | none => next f
  | some name =>
    match Kind.ofName? name with
    | some kind => .delegate kind f (.onResult next)
    | none => .fail (.unknownType name)

/-- Convert the description that belongs to the recipe, if there is one. -/
def nesting (r : Recipe) (f : Fragment) (next : Fragment → Handling) : Handling :=
  match r.nested with
  | none => next f
  | some (keyword, schema) =>
    match Description.ofJson schema with
    | .error e => .fail (.notASchema (.undecodable e))
    | .ok d => .convert d (.onResult fun result => next (f.insertOption keyword result))

def ending (r : Recipe) (f : Fragment) : Handling :=
  match r.fail with
  | some construct => .fail (.unsupported construct)
  | none => .finish (if r.drop then none else some f)

/-- **The handler of a recipe.** -/
def handler (r : Recipe) : Handler := fun settings _ f =>
  r.delegating (Fragment.Edit.applyAll r.before f) fun f =>
    r.nesting f fun f =>
      let f := f.applyOption (fun f keyword => f.insert keyword (.string settings.ipFormat.name))
        r.ipFormatAs
      r.ending (Fragment.Edit.applyAll r.after f)

end Recipe
end Schemata
