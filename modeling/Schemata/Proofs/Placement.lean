import Mathlib.Data.List.Induction
import Schemata.Proofs.Members
import Schemata.Registry.Document
/-!
# Placement — what stands where in the tree of a registry

The document of a registry nests one object per name, and a schema in it may be an object, too.  Here it
is a tree, where a schema is a leaf whatever it looks like.  A tree is known by what stands at the end
of each walk along names: a schema, a container or nothing (`Tree.slot?`).  Placing a schema has one
equation in this view (`Tree.slot?_place?`), and it is refused exactly where a schema is on the way or
something is at the end (`Tree.place?_eq_none_iff`).  So the tree of a registry shows the entries that
are placed and nothing else (`Registry.shows_tree`): those that conflict with none placed before them.
-/
namespace Schemata

/-- Schemas below named containers. -/
inductive Tree where
  | leaf (schema : Json)
  | branch (children : List (String × Tree))

namespace Tree

/-- A container of so many levels with one schema at the bottom. -/
def single (schema : Json) : List String → Tree
  | [] => leaf schema
  | name :: names => branch [(name, single schema names)]

mutual

/-- **Place a schema**, or nothing when its place is taken, or is above or below one that is. -/
def place? (schema : Json) (path : List String) : Tree → Option Tree
  | leaf _ => none
  | branch children =>
    match path with
    | [] => none
    | name :: names => (placeBelow? schema name names children).map branch

def placeBelow? (schema : Json) (name : String) (names : List String) :
    List (String × Tree) → Option (List (String × Tree))
  | [] => some [(name, single schema names)]
  | (n, t) :: children =>
    if n = name then (place? schema names t).map fun t => (n, t) :: children
    else (placeBelow? schema name names children).map ((n, t) :: ·)

end

mutual

def toJson : Tree → Json
  | leaf schema => schema
  | branch children => .object (childrenToJson children)

def childrenToJson : List (String × Tree) → Members Json
  | [] => []
  | (name, t) :: children => (name, toJson t) :: childrenToJson children

end

/-! ## Walks -/

/-- What stands at the end of a walk into a tree. -/
inductive Slot where
  | schema (schema : Json)
  | container

def slot? : Tree → List String → Option Slot
  | leaf schema, [] => some (.schema schema)
  | leaf _, _ :: _ => none
  | branch _, [] => some .container
  | branch children, name :: names => (Members.get? children name).bind (slot? · names)

/-- Place a schema in a tree, or alone where there is none. -/
def placeOr (schema : Json) (names : List String) : Option Tree → Option Tree
  | none => some (single schema names)
  | some t => t.place? schema names

theorem placeBelow?_eq (schema : Json) (name : String) (names : List String) :
    ∀ children : Members Tree, placeBelow? schema name names children =
      (placeOr schema names (Members.get? children name)).map (Members.insert children name)
  | [] => rfl
  | (n, t) :: children => by
    rw [placeBelow?, Members.get?]
    split
    · rename_i hn
      simp only [Members.insert, if_pos hn]
      rfl
    · rename_i hn
      rw [placeBelow?_eq schema name names children, Option.map_map]
      simp only [Members.insert, if_neg hn]
      rfl

theorem place?_nil (schema : Json) (t : Tree) : t.place? schema [] = none := by
  cases t <;> rfl

theorem place?_branch (schema : Json) (name : String) (names : List String)
    (children : Members Tree) :
    (branch children).place? schema (name :: names) =
      (placeOr schema names (Members.get? children name)).map fun t =>
        branch (Members.insert children name t) := by
  rw [place?, placeBelow?_eq, Option.map_map]
  rfl

/-! ## What placing does -/

theorem slot?_single (schema : Json) (path names : List String) :
    (single schema path).slot? names =
      if names = path then some (.schema schema)
      else if names <+: path then some .container else none := by
  induction path generalizing names with
  | nil => cases names <;> simp [single, slot?]
  | cons name path ih =>
    cases names with
    | nil => simp [single, slot?]
    | cons n names =>
      by_cases hn : name = n
      · subst hn
        simp [single, slot?, Members.get?, ih, List.cons_prefix_cons]
      · simp [single, slot?, Members.get?, hn, Ne.symm hn, List.cons_prefix_cons]

/-- **Placing a schema** puts it at the end of its path and containers on the way, and changes
nothing elsewhere. -/
theorem slot?_place? {schema : Json} {path : List String} {t u : Tree}
    (h : t.place? schema path = some u) (names : List String) :
    u.slot? names =
      if names = path then some (.schema schema)
      else if names <+: path then some .container else t.slot? names := by
  induction path generalizing t u names with
  | nil => rw [place?_nil] at h; cases h
  | cons name path ih =>
    cases t with
    | leaf other => cases h
    | branch children =>
      rw [place?_branch] at h
      obtain ⟨below, hbelow, rfl⟩ := Option.map_eq_some_iff.1 h
      -- A walk by another first name does not come to what was placed.
      cases names with
      | nil => simp [slot?]
      | cons n names =>
        by_cases hn : name = n
        · subst hn
          rw [slot?, slot?, Members.get?_insert_self, Option.bind_some]
          simp only [List.cons.injEq, true_and, List.cons_prefix_cons]
          cases hget : Members.get? children name with
          | none =>
            rw [hget] at hbelow
            cases hbelow
            exact slot?_single schema path names
          | some child =>
            rw [hget] at hbelow
            exact ih hbelow names
        · rw [slot?, slot?, Members.get?_insert_of_ne below hn]
          simp [Ne.symm hn, List.cons_prefix_cons]

/-- **A schema finds no place** where something stands, or where a schema is on the way. -/
theorem place?_eq_none_iff {schema : Json} {path : List String} {t : Tree} :
    t.place? schema path = none ↔
      t.slot? path ≠ none ∨ ∃ above s, above <+: path ∧ t.slot? above = some (.schema s) := by
  induction path generalizing t with
  | nil =>
    rw [place?_nil]
    cases t <;> simp [slot?]
  | cons name path ih =>
    cases t with
    | leaf other =>
      exact iff_of_true rfl (.inr ⟨[], other, List.nil_prefix, rfl⟩)
    | branch children =>
      have habove : (∃ above s, above <+: name :: path ∧
            (branch children).slot? above = some (.schema s)) ↔
          ∃ above s, above <+: path ∧
            (Members.get? children name).bind (slot? · above) = some (.schema s) := by
        constructor
        · rintro ⟨above, s, hpre, hslot⟩
          cases above with
          | nil => cases hslot
          | cons n above =>
            obtain ⟨hn, hpre⟩ := List.cons_prefix_cons.1 hpre
            rw [hn] at hslot
            exact ⟨above, s, hpre, hslot⟩
        · rintro ⟨above, s, hpre, hslot⟩
          exact ⟨name :: above, s, List.cons_prefix_cons.2 ⟨rfl, hpre⟩, hslot⟩
      rw [place?_branch, Option.map_eq_none_iff, habove, slot?]
      cases Members.get? children name with
      | none => simp [placeOr]
      | some child => exact ih

/-! ## Names in a container are distinct -/

/-- No name stands twice in a container. -/
inductive Proper : Tree → Prop
  | leaf (schema : Json) : Proper (leaf schema)
  | branch {children : Members Tree} (nodup : (Members.names children).Nodup)
      (proper : ∀ child ∈ children, Proper child.2) : Proper (branch children)

theorem proper_single (schema : Json) : ∀ path, (single schema path).Proper
  | [] => .leaf schema
  | name :: path =>
    .branch (List.nodup_singleton name) (List.forall_mem_singleton.2 (proper_single schema path))

theorem Proper.place? {schema : Json} {path : List String} {t u : Tree} (ht : t.Proper)
    (h : t.place? schema path = some u) : u.Proper := by
  induction path generalizing t u with
  | nil => rw [place?_nil] at h; cases h
  | cons name path ih =>
    cases ht with
    | leaf other => cases h
    | @branch children hnodup hproper =>
      rw [place?_branch] at h
      obtain ⟨below, hbelow, rfl⟩ := Option.map_eq_some_iff.1 h
      have hnew : below.Proper := by
        cases hget : Members.get? children name with
        | none =>
          rw [hget] at hbelow
          cases hbelow
          exact proper_single schema path
        | some child =>
          rw [hget] at hbelow
          exact ih (hproper _ (Members.mem_of_get?_eq_some hget)) hbelow
      refine .branch (Members.nodup_insert hnodup name below) fun child hchild => ?_
      rcases Members.mem_insert hchild with rfl | hchild
      · exact hnew
      · exact hproper child hchild

end Tree

namespace Registry

/-! ## The entries that are placed -/

/-- Two places of which one is the other, or above it. -/
def Conflict (a b : List String) : Prop := a <+: b ∨ b <+: a

instance (a b : List String) : Decidable (Conflict a b) :=
  inferInstanceAs (Decidable (a <+: b ∨ b <+: a))

/-- A path that names a place, in conflict with none of those taken. -/
def Free (taken : Members Json) (path : String) : Prop :=
  segments path ≠ [] ∧ ∀ e ∈ taken, ¬Conflict (segments e.1) (segments path)

instance (taken : Members Json) (path : String) : Decidable (Free taken path) :=
  inferInstanceAs (Decidable (_ ∧ _))

def addPlaced (taken : Members Json) (e : String × Json) : Members Json :=
  if Free taken e.1 then taken ++ [e] else taken

theorem addPlaced_of_free {taken : Members Json} {e : String × Json} (h : Free taken e.1) :
    addPlaced taken e = taken ++ [e] := if_pos h

theorem addPlaced_of_not_free {taken : Members Json} {e : String × Json} (h : ¬Free taken e.1) :
    addPlaced taken e = taken := if_neg h

theorem mem_addPlaced {taken : Members Json} {e p : String × Json} :
    p ∈ addPlaced taken e ↔ p ∈ taken ∨ p = e ∧ Free taken e.1 := by
  by_cases h : Free taken e.1
  · rw [addPlaced_of_free h, List.mem_append, List.mem_singleton, and_iff_left h]
  · rw [addPlaced_of_not_free h, or_iff_left fun hp => h hp.2]

/-- **The entries that are placed**: in order of registration, each that is in conflict with none
placed before it. -/
def placed (r : Registry) : Members Json := r.entries.foldl addPlaced []

theorem exists_foldl_addPlaced (entries taken : Members Json) :
    ∃ added, entries.foldl addPlaced taken = taken ++ added ∧ added.Sublist entries := by
  induction entries generalizing taken with
  | nil => exact ⟨[], (List.append_nil taken).symm, .slnil⟩
  | cons e entries ih =>
    obtain ⟨added, hadded, hsub⟩ := ih (addPlaced taken e)
    rw [List.foldl_cons, hadded, addPlaced]
    split
    · exact ⟨e :: added, by rw [List.append_assoc, List.singleton_append], hsub.cons_cons e⟩
    · exact ⟨added, rfl, hsub.cons e⟩

theorem placed_sublist (r : Registry) : r.placed.Sublist r.entries := by
  obtain ⟨added, hadded, hsub⟩ := exists_foldl_addPlaced r.entries []
  rw [placed, hadded]
  exact hsub

/-- **An entry is placed** exactly when its path names a place that is in conflict with none of the
entries placed before it. -/
theorem mem_placed_iff {r : Registry} {earlier later : Members Json} {e : String × Json}
    (h : r.entries = earlier ++ e :: later) :
    e ∈ r.placed ↔
      segments e.1 ≠ [] ∧
        ∀ p ∈ earlier, p ∈ r.placed → ¬Conflict (segments p.1) (segments e.1) := by
  obtain ⟨before, hbefore, hsub⟩ := exists_foldl_addPlaced earlier []
  obtain ⟨after, hafter, hlater⟩ := exists_foldl_addPlaced later (addPlaced before e)
  have hplaced : r.placed = addPlaced before e ++ after := by
    rw [placed, h, List.foldl_append, hbefore, List.foldl_cons, List.nil_append, hafter]
  have hnodup : (earlier ++ e :: later).Nodup := h ▸ List.Nodup.of_map _ r.nodup_paths
  have hdisjoint := List.disjoint_of_nodup_append hnodup
  have hmem : ∀ p, p ∈ r.placed ↔ (p ∈ before ∨ p = e ∧ Free before e.1) ∨ p ∈ after := fun p => by
    rw [hplaced, List.mem_append, mem_addPlaced]
  have hself : e ∈ r.placed ↔ Free before e.1 := by
    have hbefore : e ∉ before := fun hm => hdisjoint (hsub.subset hm) List.mem_cons_self
    have hafter : e ∉ after :=
      fun hm => (List.nodup_cons.1 hnodup.of_append_right).1 (hlater.subset hm)
    rw [hmem, or_iff_left hafter, or_iff_right hbefore, and_iff_right rfl]
  have hearly : ∀ p ∈ earlier, (p ∈ r.placed ↔ p ∈ before) := fun p hp => by
    have hne : p ≠ e := fun hpe => hdisjoint hp (hpe ▸ List.mem_cons_self)
    have hafter : p ∉ after := fun hm => hdisjoint hp (List.mem_cons_of_mem e (hlater.subset hm))
    rw [hmem, or_iff_left hafter, or_iff_left fun h => hne h.1]
  rw [hself, Free]
  refine and_congr_right fun _ => ⟨fun hfree p hp hpl => ?_, fun hfree p hp => ?_⟩
  · exact hfree p ((hearly p hp).1 hpl)
  · exact hfree p (hsub.subset hp) ((hearly p (hsub.subset hp)).2 hp)

/-! ## The tree shows them -/

/-- A tree with these schemas at their places, containers above them and nothing else. -/
structure Shows (t : Tree) (entries : Members Json) : Prop where
  schema_iff : ∀ {names : List String} {schema : Json},
    t.slot? names = some (.schema schema) ↔ ∃ e ∈ entries, segments e.1 = names ∧ e.2 = schema
  container_iff : ∀ {names : List String}, t.slot? names = some .container ↔
    names = [] ∨ ∃ e ∈ entries, names <+: segments e.1 ∧ names ≠ segments e.1

theorem shows_nil : Shows (.branch []) [] where
  schema_iff {names schema} := by cases names <;> simp [Tree.slot?]
  container_iff {names} := by cases names <;> simp [Tree.slot?]

variable {t : Tree} {taken : Members Json}

theorem Shows.slot?_ne_none_iff (h : Shows t taken) {names : List String} :
    t.slot? names ≠ none ↔ names = [] ∨ ∃ e ∈ taken, names <+: segments e.1 := by
  constructor
  · intro hslot
    obtain ⟨slot, hslot⟩ := Option.ne_none_iff_exists'.1 hslot
    cases slot with
    | schema s =>
      obtain ⟨e, he, hnames, -⟩ := h.schema_iff.1 hslot
      exact .inr ⟨e, he, hnames ▸ List.prefix_rfl⟩
    | container =>
      exact (h.container_iff.1 hslot).imp id fun ⟨e, he, hpre, _⟩ => ⟨e, he, hpre⟩
  · rintro (rfl | ⟨e, he, hpre⟩)
    · rw [h.container_iff.2 (.inl rfl)]
      exact Option.some_ne_none _
    · by_cases hnames : segments e.1 = names
      · rw [h.schema_iff.2 ⟨e, he, hnames, rfl⟩]
        exact Option.some_ne_none _
      · rw [h.container_iff.2 (.inr ⟨e, he, hpre, Ne.symm hnames⟩)]
        exact Option.some_ne_none _

theorem Shows.place?_eq_none_iff (h : Shows t taken) (schema : Json) (path : String) :
    t.place? schema (segments path) = none ↔ ¬Free taken path := by
  have hschema : (∃ above s, above <+: segments path ∧ t.slot? above = some (.schema s)) ↔
      ∃ e ∈ taken, segments e.1 <+: segments path := by
    simp only [h.schema_iff]
    constructor
    · rintro ⟨_, _, hpre, e, he, rfl, rfl⟩
      exact ⟨e, he, hpre⟩
    · rintro ⟨e, he, hpre⟩
      exact ⟨_, _, hpre, e, he, rfl, rfl⟩
  rw [Tree.place?_eq_none_iff, hschema, h.slot?_ne_none_iff, Free]
  simp only [Conflict]
  grind

theorem Shows.place? (h : Shows t taken) {path : String} {schema : Json} {u : Tree}
    (hfree : Free taken path) (hplace : t.place? schema (segments path) = some u) :
    Shows u (taken ++ [(path, schema)]) := by
  have hslot := Tree.slot?_place? hplace
  have hapart : ∀ e ∈ taken,
      ¬segments e.1 <+: segments path ∧ ¬segments path <+: segments e.1 :=
    fun e he => not_or.1 (hfree.2 e he)
  constructor
  · intro names s
    have hnone : names <+: segments path → ¬∃ e ∈ taken, segments e.1 = names ∧ e.2 = s := by
      rintro hpre ⟨e, he, rfl, -⟩
      exact (hapart e he).1 hpre
    rw [hslot]
    simp only [List.mem_append, List.mem_singleton, or_and_right, exists_or, exists_eq_left]
    split
    · rename_i hself
      rw [or_iff_right (hnone (hself ▸ List.prefix_rfl))]
      simp [hself]
    · rename_i hother
      split
      · rename_i hpre
        rw [or_iff_right (hnone hpre)]
        simp [Ne.symm hother]
      · rw [h.schema_iff]
        simp [Ne.symm hother]
  · intro names
    rw [hslot]
    simp only [List.mem_append, List.mem_singleton, or_and_right, exists_or, exists_eq_left]
    split
    · rename_i hself
      have hnone : ¬∃ e ∈ taken, names <+: segments e.1 ∧ names ≠ segments e.1 := by
        rintro ⟨e, he, hpre, -⟩
        exact (hapart e he).2 (hself ▸ hpre)
      rw [or_iff_right hnone]
      simp [hself, hfree.1]
    · rename_i hother
      split
      · rename_i hpre
        simp [hpre, hother]
      · rename_i hno
        rw [h.container_iff]
        simp [hno]

/-! ## A run -/

/-- Place an entry, or leave it out. -/
def plant (t : Tree) (e : String × Json) : Tree := (t.place? e.2 (segments e.1)).getD t

/-- The schemas of a registry, each at its place or left out. -/
def tree (r : Registry) : Tree := r.entries.foldl plant (.branch [])

/-- **One entry**: it is added to the tree when it is added to those placed. -/
theorem Shows.plant (h : Shows t taken) (e : String × Json) :
    Shows (plant t e) (addPlaced taken e) := by
  unfold Registry.plant
  by_cases hfree : Free taken e.1
  · obtain ⟨u, hu⟩ := Option.ne_none_iff_exists'.1
      (fun hnone => (h.place?_eq_none_iff e.2 e.1).1 hnone hfree)
    rw [hu, addPlaced_of_free hfree]
    exact h.place? hfree hu
  · rw [(h.place?_eq_none_iff e.2 e.1).2 hfree, addPlaced_of_not_free hfree]
    exact h

theorem Shows.foldl (entries : Members Json) (h : Shows t taken) :
    Shows (entries.foldl Registry.plant t) (entries.foldl addPlaced taken) := by
  induction entries generalizing t taken with
  | nil => exact h
  | cons e entries ih => exact ih (h.plant e)

/-- **The tree of a registry** shows the entries that are placed. -/
theorem shows_tree (r : Registry) : Shows r.tree r.placed := shows_nil.foldl r.entries

theorem proper_tree (r : Registry) : r.tree.Proper := by
  unfold tree
  have hroot : (Tree.branch []).Proper := .branch List.nodup_nil (fun _ h => absurd h List.not_mem_nil)
  refine List.foldlRecOn r.entries plant hroot fun t ht e _ => ?_
  unfold plant
  cases hplace : t.place? e.2 (segments e.1) with
  | none => exact ht
  | some u => exact ht.place? hplace

/-- Entries that are left out leave nothing behind. -/
theorem foldl_plant_placed (entries : Members Json) :
    (entries.foldl addPlaced []).foldl plant (.branch []) = entries.foldl plant (.branch []) := by
  induction entries using List.reverseRecOn with
  | nil => rfl
  | append_singleton entries e ih =>
    have hshows := shows_nil.foldl entries
    rw [List.foldl_concat, List.foldl_concat, ← ih]
    rw [← ih] at hshows
    by_cases hfree : Free (entries.foldl addPlaced []) e.1
    · rw [addPlaced_of_free hfree, List.foldl_concat]
    · have hnone := (hshows.place?_eq_none_iff e.2 e.1).2 hfree
      rw [addPlaced_of_not_free hfree, plant, hnone, Option.getD_none]

end Registry
end Schemata
