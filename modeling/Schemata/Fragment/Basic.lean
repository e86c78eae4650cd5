import Schemata.Fragment.Bag
/-!
# Fragment — a JSON Schema being built

A fragment is a list of keywords and, once something asked for it, a bag of metadata.  The bag is
written as the keyword `meta` at the place where it was created: after as many keywords as `slot`
says.  Taking the last thing out of the bag drops it, and a bag created afterwards stands at its own
place.
-/
namespace Schemata

/-- A JSON Schema fragment being built. -/
structure Fragment where
  keywords : Members Json := []
  bag : Option Bag := none
  /-- How many keywords stand before the bag; without a meaning while there is none. -/
  slot : Nat := 0
  deriving DecidableEq

namespace Fragment

def bagKey : String := "meta"

/-- Set a keyword: in place when it is there, at the end when it is not. -/
def insert (f : Fragment) (name : String) (value : Json) : Fragment :=
  { f with keywords := Members.insert f.keywords name value }

def insertAll (f : Fragment) (new : Members Json) : Fragment :=
  new.foldl (fun f m => f.insert m.1 m.2) f

def applyOption {α : Type} (f : Fragment) (change : Fragment → α → Fragment) :
    Option α → Fragment
  | some a => change f a
  | none => f

/-- Set a keyword that may be left out. -/
def insertOption (f : Fragment) (name : String) (value? : Option Json) : Fragment :=
  f.applyOption (fun f value => f.insert name value) value?

def get? (f : Fragment) (name : String) : Option Json := Members.get? f.keywords name

def contains (f : Fragment) (name : String) : Bool := Members.contains f.keywords name

/-- Take a keyword out and keep the order of the rest, the bag among them. -/
def remove (f : Fragment) (name : String) : Fragment :=
  match Members.position? f.keywords name with
  | none => f
  | some i =>
    { f with
      keywords := Members.erase f.keywords name
      slot := if i < f.slot then f.slot - 1 else f.slot }

/-- The fragment with a bag, created here unless there is one. -/
def openBag (f : Fragment) : Fragment :=
  match f.bag with
  | some _ => f
  | none => { f with bag := some {}, slot := f.keywords.length }

/-- Change the bag, which is created here unless there is one. -/
def modifyBag (f : Fragment) (change : Bag → Bag) : Fragment :=
  let f := f.openBag
  { f with bag := f.bag.map change }

def dropEmptyBag (f : Fragment) : Fragment :=
  match f.bag with
  | some b => if b.isEmpty then { f with bag := none } else f
  | none => f

/-- Take the name to register under out of the bag. -/
def takeExtract (f : Fragment) : Option String × Fragment :=
  match f.bag with
  | none => (none, f)
  | some b =>
    let (name, b) := b.takeExtract
    (name, dropEmptyBag { f with bag := some b })

def takeTerm (f : Fragment) : Option String × Fragment :=
  match f.bag with
  | none => (none, f)
  | some b =>
    let (term, b) := b.takeTerm
    (term, dropEmptyBag { f with bag := some b })

/-- The members of the written fragment: the keywords, and the bag at its place.  A keyword named
`meta` and the bag share one member; the later of the two wins. -/
def toMembers (f : Fragment) : Members Json :=
  match f.bag with
  | none => f.keywords
  | some b =>
    let before := Members.insert (f.keywords.take f.slot) bagKey b.toJson
    Members.insertAll before (f.keywords.drop f.slot)

/-- **The written fragment.** -/
def toJson (f : Fragment) : Json := .object f.toMembers

end Fragment
end Schemata
