import Schemata.Proofs.Overwriting
import Schemata.Proofs.Placement
/-!
# Drafting — the document is the tree of the registry

The document is drafted in one object, where a schema that is an object looks like a container, and
containers are made on the way down, before it is known whether the schema finds a place.  The places
of the schemas are kept beside the object, and no way leads through one of them.  So the object and
those places are a tree all along (`Draft.Models`): an entry is placed in both or left out of both,
and what is made on the way stands only where a schema is placed below it (`Draft.Models.add`).
-/
namespace Schemata

open Registry (segments plant)

namespace Members

variable {α : Type} {name : String} {value : α}

/-- What stands under a name may be set again. -/
theorem insert_of_get?_eq_some : ∀ {ms : Members α}, get? ms name = some value →
    insert ms name value = ms
  | [], h => by cases h
  | (n, v) :: ms, h => by
    rw [get?] at h
    rw [insert]
    split at h
    · rename_i hn
      cases h
      rw [if_pos hn]
    · rename_i hn
      rw [if_neg hn, insert_of_get?_eq_some h]

end Members

namespace Tree

theorem get?_childrenToJson (name : String) : ∀ children : Members Tree,
    Members.get? (childrenToJson children) name = (Members.get? children name).map toJson
  | [] => rfl
  | (n, t) :: children => by
    rw [childrenToJson, Members.get?, Members.get?, get?_childrenToJson name children]
    split <;> rfl

theorem childrenToJson_insert (name : String) (t : Tree) : ∀ children : Members Tree,
    childrenToJson (Members.insert children name t) =
      Members.insert (childrenToJson children) name t.toJson
  | [] => rfl
  | (n, u) :: children => by
    rw [childrenToJson, Members.insert, Members.insert]
    split
    · rfl
    · rw [childrenToJson, childrenToJson_insert name t children]

theorem place?_branch_nil (schema : Json) : ∀ {names : List String}, names ≠ [] →
    (branch []).place? schema names = some (single schema names)
  | [], h => absurd rfl h
  | _ :: _, _ => rfl

theorem slot?_branch_nil_ne (schema : Json) (names : List String) :
    (branch []).slot? names ≠ some (.schema schema) := by
  cases names <;> simp [slot?]

end Tree

namespace Draft

open Schemata.Tree (branch childrenToJson childrenToJson_insert get?_childrenToJson)

/-! ## One way down -/

section Descend

variable {place : Members Json → Members Json × Bool} {n : String} {names : List String}
  {ms inner : Members Json}

theorem descend_cons_of_none (h : Members.get? ms n = none) :
    descend place (n :: names) ms =
      (Members.insert ms n (.object (descend place names []).1), (descend place names []).2) := by
  simp only [descend, Members.contains, h, Option.isSome_none, Bool.false_eq_true, if_false,
    Members.get?_insert_self, Members.insert_insert_self]

theorem descend_cons_of_object (h : Members.get? ms n = some (.object inner)) :
    descend place (n :: names) ms =
      (Members.insert ms n (.object (descend place names inner).1), (descend place names inner).2) := by
  simp only [descend, Members.contains, h, Option.isSome_some, if_true]

end Descend

/-- **A tree and its object alike**: a schema is placed in both, or has no place in the tree and the object
is as it was.  The result tells which. -/
inductive Descent (schema : Json) (path : List String) (children : Members Tree) :
    Members Json × Bool → Prop
  | placed {children' : Members Tree}
    (h : (branch children).place? schema path = some (branch children')) :
    Descent schema path children (childrenToJson children', true)
  | leftOut (h : (branch children).place? schema path = none) :
    Descent schema path children (childrenToJson children, false)

namespace Descent

variable {schema : Json} {path : List String} {n : String} {children inner : Members Tree}
  {result : Members Json × Bool}

/-- A container that is made has a place for anything. -/
theorem cons_of_none (hget : Members.get? children n = none) (hpath : path ≠ [])
    (h : Descent schema path [] result) :
    Descent schema (n :: path) children
      (Members.insert (childrenToJson children) n (.object result.1), result.2) := by
  have hempty := Tree.place?_branch_nil schema hpath
  cases h with
  | placed h =>
    have hsingle := Option.some.inj (hempty.symm.trans h)
    rw [← Tree.toJson, ← childrenToJson_insert]
    refine .placed ?_
    rw [Tree.place?_branch, hget, Tree.placeOr, hsingle]
    rfl
  | leftOut h => exact absurd (hempty.symm.trans h) (Option.some_ne_none _)

theorem cons_of_branch (hget : Members.get? children n = some (branch inner))
    (h : Descent schema path inner result) :
    Descent schema (n :: path) children
      (Members.insert (childrenToJson children) n (.object result.1), result.2) := by
  cases h with
  | placed h =>
    rw [← Tree.toJson, ← childrenToJson_insert]
    refine .placed ?_
    rw [Tree.place?_branch, hget, Tree.placeOr, h]
    rfl
  | leftOut h =>
    -- Nothing was placed, so the container goes back as it was.
    have hobject : Members.get? (childrenToJson children) n =
        some (.object (childrenToJson inner)) := by
      rw [get?_childrenToJson, hget]
      rfl
    rw [Members.insert_of_get?_eq_some hobject]
    refine .leftOut ?_
    rw [Tree.place?_branch, hget, Tree.placeOr, h]
    rfl

end Descent

/-- **Going down and placing a schema** does in the object of a tree what is done in the tree, when no
schema is on the way. -/
theorem descend_descent (schema : Json) (name : String) : ∀ (names : List String)
    {children : Members Tree},
    (∀ above s, above <+: names → (branch children).slot? above ≠ some (.schema s)) →
    Descent schema (names ++ [name]) children
      (descend (insertNew name schema) names (childrenToJson children))
  | [], children, _ => by
    rw [descend, insertNew, Members.contains, get?_childrenToJson]
    cases hget : Members.get? children name with
    | none =>
      change Descent schema [name] children
        (Members.insert (childrenToJson children) name (Tree.leaf schema).toJson, true)
      rw [← childrenToJson_insert]
      refine .placed ?_
      rw [Tree.place?_branch, hget]
      rfl
    | some t =>
      refine .leftOut ?_
      rw [List.nil_append, Tree.place?_branch, hget, Tree.placeOr, Tree.place?_nil]
      rfl
  | n :: names, children, hway => by
    cases hget : Members.get? children n with
    | none =>
      rw [descend_cons_of_none (by rw [get?_childrenToJson, hget]; rfl)]
      refine .cons_of_none hget (List.concat_ne_nil name names) ?_
      exact descend_descent schema name names fun above s _ => Tree.slot?_branch_nil_ne s above
    | some t =>
      cases t with
      | leaf s =>
        refine absurd ?_ (hway [n] s (List.cons_prefix_cons.2 ⟨rfl, List.nil_prefix⟩))
        rw [Tree.slot?, hget]
        rfl
      | branch inner =>
        rw [descend_cons_of_object (by rw [get?_childrenToJson, hget]; rfl)]
        refine .cons_of_branch hget (descend_descent schema name names fun above s hpre hslot => ?_)
        refine hway (n :: above) s (List.cons_prefix_cons.2 ⟨rfl, hpre⟩) ?_
        rw [Tree.slot?, hget]
        exact hslot

/-! ## One entry -/

variable {d : Draft} {t : Tree}

/-- A schema on the way is one that stands above. -/
theorem isShadowed_iff {path : List String} :
    d.isShadowed path = true ↔
      ∃ above ∈ d.leaves, above ≠ [] ∧ above ≠ path ∧ above <+: path := by
  simp only [isShadowed, List.any_eq_true, List.mem_range'_1, decide_eq_true_eq]
  constructor
  · rintro ⟨n, hn, hmem⟩
    have hlength : (path.take n).length = n := List.length_take_of_le (by omega)
    refine ⟨path.take n, hmem, fun hnil => ?_, fun hself => ?_, List.take_prefix n path⟩
    · rw [hnil, List.length_nil] at hlength
      omega
    · rw [hself] at hlength
      omega
  · rintro ⟨above, hmem, hnil, hself, hpre⟩
    have htake := List.prefix_iff_eq_take.1 hpre
    have hpos := List.length_pos_iff.2 hnil
    have hlt : above.length < path.length :=
      Nat.lt_of_le_of_ne hpre.length_le fun hlength => hself (hpre.eq_of_length hlength)
    exact ⟨above.length, by omega, htake ▸ hmem⟩

/-- **A draft as a tree**: the object is that of the tree, and the places are those of its schemas. -/
structure Models (d : Draft) (t : Tree) : Prop where
  root : ∃ children, t = branch children ∧ d.root = childrenToJson children
  leaves_iff : ∀ names, names ∈ d.leaves ↔ ∃ schema, t.slot? names = some (.schema schema)

theorem models_nil : Models {} (branch []) where
  root := ⟨[], rfl, rfl⟩
  leaves_iff names := by
    simp [Tree.slot?_branch_nil_ne]

/-- The place of a schema that is added is one more. -/
theorem Models.leaves_iff_place? (h : Models d t) {schema : Json} {path : List String} {u : Tree}
    (hplace : t.place? schema path = some u) (names : List String) :
    names ∈ path :: d.leaves ↔ ∃ s, u.slot? names = some (.schema s) := by
  rw [Tree.slot?_place? hplace, List.mem_cons, h.leaves_iff]
  split
  · rename_i hself
    exact iff_of_true (.inl hself) ⟨schema, rfl⟩
  · rename_i hother
    rw [or_iff_right hother]
    split
    · rename_i hpre
      -- A schema that is above a place would have refused it.
      refine iff_of_false (fun ⟨s, hslot⟩ => ?_) (by simp)
      rw [Tree.place?_eq_none_iff.2 (.inr ⟨names, s, hpre, hslot⟩)] at hplace
      cases hplace
    · exact Iff.rfl

/-- No schema is above the last name of a way that is not shadowed. -/
theorem Models.slot?_ne_of_not_shadowed (h : Models d t) {names above : List String} {name : String}
    (hshadow : ¬d.isShadowed (names ++ [name])) (hpre : above <+: names) (schema : Json) :
    t.slot? above ≠ some (.schema schema) := by
  obtain ⟨children, rfl, -⟩ := h.root
  intro hslot
  refine hshadow (isShadowed_iff.2 ⟨above, (h.leaves_iff above).2 ⟨schema, hslot⟩, ?_, ?_, ?_⟩)
  · rintro rfl
    cases hslot
  · rintro rfl
    have hlength := hpre.length_le
    rw [List.length_append, List.length_singleton] at hlength
    omega
  · exact hpre.trans (List.prefix_append names [name])

/-- **One entry** is placed in the draft as it is in the tree, or left out of both. -/
theorem Models.add (h : Models d t) (e : String × Json) : Models (d.add e) (plant t e) := by
  obtain ⟨path, schema⟩ := e
  rcases List.eq_nil_or_concat' (segments path) with hnil | ⟨names, name, hpath⟩
  · rw [Draft.add, plant, hnil, Tree.place?_nil]
    exact h
  · simp only [Draft.add, plant, hpath, List.getLast?_concat, List.dropLast_concat]
    by_cases hshadow : d.isShadowed (names ++ [name])
    · obtain ⟨above, hmem, -, -, hpre⟩ := isShadowed_iff.1 hshadow
      obtain ⟨s, hslot⟩ := (h.leaves_iff above).1 hmem
      rw [if_pos hshadow, Tree.place?_eq_none_iff.2 (.inr ⟨above, s, hpre, hslot⟩)]
      exact h
    · have hway : ∀ above s, above <+: names → t.slot? above ≠ some (.schema s) :=
        fun _ s hpre => h.slot?_ne_of_not_shadowed hshadow hpre s
      obtain ⟨children, rfl, hroot⟩ := h.root
      have hdescent := descend_descent schema name names hway
      rw [if_neg hshadow, hroot]
      generalize descend (insertNew name schema) names (childrenToJson children) = result at *
      cases hdescent with
      | placed hplace =>
        rw [hplace]
        exact ⟨⟨_, rfl, rfl⟩, h.leaves_iff_place? hplace⟩
      | leftOut hplace =>
        rw [hplace]
        exact ⟨⟨children, rfl, rfl⟩, h.leaves_iff⟩

theorem Models.foldl (entries : Members Json) (h : Models d t) :
    Models (entries.foldl Draft.add d) (entries.foldl plant t) := by
  induction entries generalizing d t with
  | nil => exact h
  | cons e entries ih => exact ih (h.add e)

end Draft

/-- **The document of a registry** is the value of its tree. -/
theorem Registry.document_eq (r : Registry) : r.document = r.tree.toJson := by
  obtain ⟨children, htree, hroot⟩ := (Draft.models_nil.foldl r.entries).root
  rw [document, tree, htree, hroot, Tree.toJson]

end Schemata
