import Mathlib.Order.Basic
import Schemata.Proofs.Members
import Schemata.Registry.Basic
/-!
# Growth — one registry extends another

`r ≤ s` says that the entries of `r` stand at the head of those of `s`: no path lost its schema or
its place.  What a path names in `r` it names in every registry above, so whatever is said of a
registry by its look-ups stays true while it grows.
-/
namespace Schemata

namespace Registry

/-- A registry grows at its end. -/
instance : Preorder Registry where
  le r s := r.entries <+: s.entries
  le_refl r := List.prefix_refl r.entries
  le_trans _ _ _ := List.IsPrefix.trans

theorem le_iff {r s : Registry} : r ≤ s ↔ ∃ later, s.entries = r.entries ++ later := by
  constructor
  · rintro ⟨later, h⟩
    exact ⟨later, h.symm⟩
  · rintro ⟨later, h⟩
    exact ⟨later, h.symm⟩

theorem contains_iff {r : Registry} {path : String} : r.contains path = true ↔ path ∈ r.paths :=
  Members.contains_iff path r.entries

theorem paths_eq_append {r s : Registry} {added : Members Json}
    (h : s.entries = r.entries ++ added) : s.paths = r.paths ++ Members.names added := by
  rw [paths, h, Members.names, List.map_append]
  rfl

/-- What is added stands under paths of its own, each once. -/
theorem nodup_added {r s : Registry} {added : Members Json}
    (h : s.entries = r.entries ++ added) :
    (Members.names added).Nodup ∧ ∀ path ∈ Members.names added, path ∉ r.paths := by
  have hnodup : s.paths.Nodup := s.nodup_paths
  rw [paths_eq_append h] at hnodup
  exact ⟨hnodup.of_append_right, fun path hadded hr =>
    List.disjoint_of_nodup_append hnodup hr hadded⟩

/-! ## Along growth -/

theorem paths_subset {r s : Registry} (h : r ≤ s) {path : String} (hp : path ∈ r.paths) :
    path ∈ s.paths := by
  obtain ⟨later, hs⟩ := le_iff.1 h
  rw [paths_eq_append hs]
  exact List.mem_append_left _ hp

theorem contains_of_le {r s : Registry} (h : r ≤ s) {path : String} (hp : r.contains path = true) :
    s.contains path = true :=
  contains_iff.2 (paths_subset h (contains_iff.1 hp))

theorem size_le_size {r s : Registry} (h : r ≤ s) : r.size ≤ s.size := h.length_le

theorem get?_of_le {r s : Registry} (h : r ≤ s) {path : String} {schema : Json}
    (hp : r.get? path = some schema) : s.get? path = some schema := by
  obtain ⟨later, hs⟩ := le_iff.1 h
  rw [get?, hs]
  exact Members.get?_append_of_some later hp

/-! ## Registration -/

theorem le_register (r : Registry) (path : String) (schema : Json) : r ≤ r.register path schema := by
  by_cases h : r.contains path = true
  · rw [register_of_contains h]
  · exact le_iff.2 ⟨_, entries_register_of_not_contains h schema⟩

theorem contains_register (r : Registry) (path : String) (schema : Json) :
    (r.register path schema).contains path = true := by
  by_cases h : r.contains path = true
  · rw [register_of_contains h]
    exact h
  · rw [contains_iff, paths, entries_register_of_not_contains h]
    simp [Members.names]

theorem paths_register (r : Registry) (path : String) (schema : Json) :
    (r.register path schema).paths = if path ∈ r.paths then r.paths else r.paths ++ [path] := by
  by_cases h : path ∈ r.paths
  · rw [if_pos h, register_of_contains (contains_iff.2 h)]
  · rw [if_neg h, paths, entries_register_of_not_contains (mt contains_iff.1 h), Members.names,
      List.map_append]
    rfl

theorem mem_paths_register {r : Registry} {path other : String} {schema : Json} :
    other ∈ (r.register path schema).paths ↔ other ∈ r.paths ∨ other = path := by
  rw [paths_register]
  split
  · rename_i h
    exact ⟨.inl, fun ho => ho.elim id fun ho => ho ▸ h⟩
  · rw [List.mem_append, List.mem_singleton]

theorem size_register_of_not_contains {r : Registry} {path : String}
    (h : ¬r.contains path = true) (schema : Json) :
    (r.register path schema).size = r.size + 1 := by
  rw [size, entries_register_of_not_contains h, List.length_append]
  rfl

theorem get?_register_of_not_contains {r : Registry} {path : String}
    (h : ¬r.contains path = true) (schema : Json) :
    (r.register path schema).get? path = some schema := by
  have hn : path ∉ Members.names r.entries := fun hm => h (contains_iff.2 hm)
  rw [get?, entries_register_of_not_contains h, Members.get?_append_of_not_mem _ hn]
  simp [Members.get?]

end Registry
end Schemata
