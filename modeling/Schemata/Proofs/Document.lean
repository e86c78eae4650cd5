import Schemata.Proofs.Drafting
/-!
# Document — what stands where in a registry rendered as one value

Names are followed into a value through members of objects and items of arrays (`Json.at?`).  In the
value of a tree they lead to what the tree has there: to a container, or into a schema.  So the
document of a registry consists of the schemas that are placed and of the containers above them
(`Registry.document_placed`).
-/
namespace Schemata

namespace Json

/-- The part of a value under a name: the member of an object, or the item of an array at the place
that the name spells. -/
def part? : Json → String → Option Json
  | object members, name => Members.get? members name
  | array items, name => (items.zipIdx.find? fun item => toString item.2 = name).map Prod.fst
  | _, _ => none

/-- The part of a value that names lead to, one after the other. -/
def at? (v : Json) (names : List String) : Option Json := names.foldlM part? v

theorem at?_cons (v : Json) (name : String) (names : List String) :
    v.at? (name :: names) = (v.part? name).bind (at? · names) := rfl

end Json

namespace Tree

theorem names_childrenToJson : ∀ children : Members Tree,
    Members.names (childrenToJson children) = Members.names children
  | [] => rfl
  | (n, _) :: children => congrArg (n :: ·) (names_childrenToJson children)

theorem at?_toJson_cons (children : Members Tree) (name : String) (names : List String) :
    (branch children).toJson.at? (name :: names) =
      (Members.get? children name).bind fun t => t.toJson.at? names := by
  rw [Json.at?_cons, toJson, Json.part?, get?_childrenToJson, Option.bind_map]
  rfl

/-! ## Following names -/

variable {t : Tree} {names : List String}

theorem at?_of_schema {schema : Json} (h : t.slot? names = some (.schema schema)) :
    t.toJson.at? names = some schema := by
  induction names generalizing t with
  | nil => cases t <;> cases h; rfl
  | cons name names ih =>
    cases t with
    | leaf other => cases h
    | branch children =>
      obtain ⟨child, hget, hchild⟩ := Option.bind_eq_some_iff.1 h
      rw [at?_toJson_cons, hget]
      exact ih hchild

theorem at?_of_container (ht : t.Proper) (h : t.slot? names = some .container) :
    ∃ members, t.toJson.at? names = some (.object members) ∧ (Members.names members).Nodup ∧
      ∀ name, name ∈ Members.names members ↔ t.slot? (names ++ [name]) ≠ none := by
  induction names generalizing t with
  | nil =>
    cases ht with
    | leaf other => cases h
    | @branch children hnodup _ =>
      refine ⟨childrenToJson children, rfl, by rwa [names_childrenToJson], fun name => ?_⟩
      rw [names_childrenToJson, ← Members.contains_iff, Members.contains, List.nil_append, slot?]
      cases Members.get? children name with
      | none => simp
      | some child => cases child <;> simp [slot?]
  | cons name names ih =>
    cases ht with
    | leaf other => cases h
    | @branch children _ hproper =>
      obtain ⟨child, hget, hchild⟩ := Option.bind_eq_some_iff.1 h
      obtain ⟨members, hat, hnodup, hnames⟩ :=
        ih (hproper _ (Members.mem_of_get?_eq_some hget)) hchild
      refine ⟨members, ?_, hnodup, fun next => ?_⟩
      · rw [at?_toJson_cons, hget]
        exact hat
      · rw [hnames, List.cons_append, slot?, hget, Option.bind_some]

/-- Names lead nowhere but to containers and into schemas. -/
theorem slot?_of_at? {v : Json} (h : t.toJson.at? names = some v) :
    t.slot? names = some .container ∨
      ∃ above s, above <+: names ∧ t.slot? above = some (.schema s) := by
  induction names generalizing t with
  | nil =>
    cases t with
    | leaf s => exact .inr ⟨[], s, List.nil_prefix, rfl⟩
    | branch children => exact .inl rfl
  | cons name names ih =>
    cases t with
    | leaf s => exact .inr ⟨[], s, List.nil_prefix, rfl⟩
    | branch children =>
      rw [at?_toJson_cons] at h
      obtain ⟨child, hget, hchild⟩ := Option.bind_eq_some_iff.1 h
      rcases ih hchild with hslot | ⟨above, s, hpre, hslot⟩
      · left
        rw [slot?, hget]
        exact hslot
      · refine .inr ⟨name :: above, s, List.cons_prefix_cons.2 ⟨rfl, hpre⟩, ?_⟩
        rw [slot?, hget]
        exact hslot

end Tree

namespace Registry

/-- The entries that are placed, as a registry. -/
def keepPlaced (r : Registry) : Registry where
  entries := r.placed
  nodup_paths := (r.placed_sublist.map Prod.fst).nodup r.nodup_paths

theorem document_keepPlaced (r : Registry) : r.keepPlaced.document = r.document := by
  rw [document_eq, document_eq]
  exact congrArg Tree.toJson (foldl_plant_placed r.entries)

theorem document_at?_of_mem_placed {r : Registry} {e : String × Json} (h : e ∈ r.placed) :
    r.document.at? (segments e.1) = some e.2 := by
  rw [document_eq]
  exact Tree.at?_of_schema (r.shows_tree.schema_iff.2 ⟨e, h, rfl, rfl⟩)

/-- **A registry as one document** shows the entries that are placed, and these are in conflict with
none placed before them.  The others leave nothing behind.  At each place stands the schema that was
registered under it, and whatever else the document has is a container above a place, whose names go
on towards places. -/
theorem document_placed (r : Registry) :
    r.placed.Sublist r.entries ∧
    (∀ earlier e later, r.entries = earlier ++ e :: later →
      (e ∈ r.placed ↔ segments e.1 ≠ [] ∧
        ∀ p ∈ earlier, p ∈ r.placed → ¬Conflict (segments p.1) (segments e.1))) ∧
    r.keepPlaced.document = r.document ∧
    (∀ e ∈ r.placed, r.document.at? (segments e.1) = some e.2) ∧
    ∀ names v, r.document.at? names = some v →
      (∃ e ∈ r.placed, segments e.1 <+: names) ∨
      ((names = [] ∨ ∃ e ∈ r.placed, names <+: segments e.1) ∧
        ∃ members, v = .object members ∧ (Members.names members).Nodup ∧
          ∀ name, name ∈ Members.names members ↔
            ∃ e ∈ r.placed, names ++ [name] <+: segments e.1) := by
  refine ⟨r.placed_sublist, fun _ _ _ => mem_placed_iff, r.document_keepPlaced,
    fun _ => document_at?_of_mem_placed, fun names v hv => ?_⟩
  have hshows := r.shows_tree
  rw [document_eq] at hv
  rcases Tree.slot?_of_at? hv with hslot | ⟨above, s, hpre, hslot⟩
  · right
    have habove : names = [] ∨ ∃ e ∈ r.placed, names <+: segments e.1 :=
      hshows.slot?_ne_none_iff.1 (hslot ▸ Option.some_ne_none _)
    obtain ⟨members, hat, hnodup, hnames⟩ := Tree.at?_of_container r.proper_tree hslot
    refine ⟨habove, members, Option.some.inj (hv.symm.trans hat), hnodup, fun name => ?_⟩
    rw [hnames, hshows.slot?_ne_none_iff, or_iff_right (List.concat_ne_nil name names)]
  · left
    obtain ⟨e, he, rfl, -⟩ := hshows.schema_iff.1 hslot
    exact ⟨e, he, hpre⟩

/-- Paths in conflict either way round, with a schema that looks like a container. -/
theorem document_placed_conflicts :
    let schema : Json := .object [("B", .object [])]
    let r := ofList [("/A", schema), ("/A/B", .null), ("/", .null), ("/C//D/", schema), ("/C", .null)]
    r.placed = [("/A", schema), ("/C//D/", schema)] ∧
      r.document = .object [("A", schema), ("C", .object [("D", schema)])] ∧
      ("/C", .null) ∉ r.placed ∧ r.document.at? (segments "/C//D/") = some schema := by
  intro schema r
  have hplaced : r.placed = [("/A", schema), ("/C//D/", schema)] := by decide +kernel
  have hdocument : r.document = .object [("A", schema), ("C", .object [("D", schema)])] := by
    decide +kernel
  obtain ⟨-, hgreedy, -, hat, -⟩ := document_placed r
  have hD : ("/C//D/", schema) ∈ r.placed := by simp [hplaced]
  refine ⟨hplaced, hdocument, fun hC => ?_, hat _ hD⟩
  exact ((hgreedy (r.entries.take 4) ("/C", .null) [] rfl).1 hC).2 _ (by decide +kernel) hD
    (by decide +kernel)

end Registry
end Schemata
