import Schemata.Fragment.Basic
/-!
# Edit — a change to a fragment, as data

Edits are what a handler that is given as data does to a fragment.
-/
namespace Schemata

/-- A change to a bag. -/
inductive Bag.Edit where
  | merge (fragment : Members Json)
  | insert (name : String) (value : Json)
  | pushNotes (notes : List String)
  | pushTags (tags : List String)
  | setUnit (unit : String)
  | takeExtract
  | takeTerm

def Bag.Edit.apply : Bag.Edit → Bag → Bag
  | merge fragment, b => b.merge fragment
  | insert name value, b => b.insert name value
  | pushNotes notes, b => b.pushNotes notes
  | pushTags tags, b => b.pushTags tags
  | setUnit unit, b => b.setUnit unit
  | takeExtract, b => b.takeExtract.2
  | takeTerm, b => b.takeTerm.2

/-- A change to a fragment. -/
inductive Fragment.Edit where
  | insert (name : String) (value : Json)
  | remove (name : String)
  | takeExtract
  | takeTerm
  | openBag
  /-- Create the bag unless there is one, and change it. -/
  | bag (edit : Bag.Edit)

namespace Fragment.Edit

def apply : Edit → Fragment → Fragment
  | insert name value, f => f.insert name value
  | remove name, f => f.remove name
  | takeExtract, f => f.takeExtract.2
  | takeTerm, f => f.takeTerm.2
  | openBag, f => f.openBag
  | bag edit, f => f.modifyBag edit.apply

def applyAll (edits : List Edit) (f : Fragment) : Fragment := edits.foldl (fun f e => e.apply f) f

end Fragment.Edit
end Schemata
