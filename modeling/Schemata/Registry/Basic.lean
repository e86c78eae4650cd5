import Schemata.Json.Basic
/-!
# Registry — extracted schemas by path

A registry only grows.  A path that is taken keeps its schema: the first writer wins.
-/
namespace Schemata

/-- Extracted schemas under their full paths, in order of registration; no path stands twice. -/
structure Registry where
  entries : Members Json := []
  nodup_paths : (Members.names entries).Nodup := by exact List.nodup_nil

namespace Registry

def contains (r : Registry) (path : String) : Bool := Members.contains r.entries path

def get? (r : Registry) (path : String) : Option Json := Members.get? r.entries path

def paths (r : Registry) : List String := Members.names r.entries

def size (r : Registry) : Nat := r.entries.length

def isEmpty (r : Registry) : Bool := r.entries.isEmpty

/-- **Register a schema**, unless its path is taken. -/
def register (r : Registry) (path : String) (schema : Json) : Registry :=
  if h : r.contains path then r
  else
    { entries := r.entries ++ [(path, schema)]
      nodup_paths := by
        have hn : path ∉ Members.names r.entries := fun hm =>
          h ((Members.contains_iff path r.entries).2 hm)
        rw [Members.names, List.map_append, List.nodup_append]
        refine ⟨r.nodup_paths, by simp, ?_⟩
        intro a ha b hb hab
        simp only [List.map_cons, List.map_nil, List.mem_singleton] at hb
        exact hn (hb ▸ hab ▸ ha) }

/-- A registry that starts with schemas; of those under one path the first stays. -/
def ofList (schemas : List (String × Json)) : Registry :=
  schemas.foldl (fun r s => r.register s.1 s.2) {}

/-- A path that is taken keeps the registry as it is. -/
theorem register_of_contains {r : Registry} {path : String} (h : r.contains path = true)
    (schema : Json) :
    r.register path schema = r := by
  rw [register, dif_pos h]

theorem entries_register_of_not_contains {r : Registry} {path : String}
    (h : ¬r.contains path = true)
    (schema : Json) : (r.register path schema).entries = r.entries ++ [(path, schema)] := by
  rw [register, dif_neg h]

end Registry

/-- What stands for an extracted schema: a reference to its path. -/
def Json.reference (path : String) : Json := .object [("$ref", .string ("#" ++ path))]

end Schemata
