import Schemata.Registry.Basic
/-!
# The registry as one document

A path is a list of names, and the document nests one object per name.  Schemas are placed in order
of registration.  A schema is a leaf even when it is an object itself: nothing is placed at, above
or below a leaf that is there, so of two paths that conflict the first keeps its place and the other
is left out.

While it is made the document is one object, in which a schema may look like a container.  So the
places of the schemas are kept beside it.
-/
namespace Schemata

namespace Registry

def separator : Char := '/'

def cut : List Char → List Char → List (List Char)
  | [], part => [part.reverse]
  | c :: cs, part => if c = separator then part.reverse :: cut cs [] else cut cs (c :: part)

/-- The names along a path, the empty ones left out. -/
def segments (path : String) : List String :=
  ((cut path.toList []).filter fun part => !part.isEmpty).map String.ofList

end Registry

/-- A document under construction, and the places of the schemas in it. -/
structure Draft where
  root : Members Json := []
  leaves : List (List String) := []

namespace Draft

/-- Go down into containers by names and let `place` have the last; it tells whether it placed
something.  Containers that are not there are made on the way.  A name of anything else leads no
further, and then nothing is placed. -/
def descend (place : Members Json → Members Json × Bool) :
    List String → Members Json → Members Json × Bool
  | [], ms => place ms
  | name :: names, ms =>
    let ms := if Members.contains ms name then ms else Members.insert ms name (.object [])
    match Members.get? ms name with
    | some (.object inner) =>
      let (inner, isPlaced) := descend place names inner
      (Members.insert ms name (.object inner), isPlaced)
    | _ => (ms, false)

/-- Set a name that is not there. -/
def insertNew (name : String) (value : Json) (ms : Members Json) : Members Json × Bool :=
  if Members.contains ms name then (ms, false) else (Members.insert ms name value, true)

/-- Is there a schema on the way to a place? -/
def isShadowed (d : Draft) (path : List String) : Bool :=
  (List.range' 1 (path.length - 1)).any fun n => path.take n ∈ d.leaves

/-- **Place an entry**, or leave it out. -/
def add (d : Draft) (e : String × Json) : Draft :=
  let path := Registry.segments e.1
  match path.getLast? with
  | none => d
  | some name =>
    if d.isShadowed path then d
    else
      let (root, isPlaced) := descend (insertNew name e.2) path.dropLast d.root
      { root, leaves := if isPlaced then path :: d.leaves else d.leaves }

end Draft

/-- **The registry as one document.** -/
def Registry.document (r : Registry) : Json := .object (r.entries.foldl Draft.add {}).root

end Schemata
