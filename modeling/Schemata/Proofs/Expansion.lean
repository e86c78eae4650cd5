import Schemata.Proofs.Place
/-!
# Expansion — schemas in place of references

`Json.expandWith φ v` puts `φ text` in place of every schema that refers to `text`, and is nothing
when `φ` says nothing of one of them.  `Registry.expand n v` looks references up in a registry, goes
on with what it finds, and follows at most `n` references one after the other; so it is nothing when
a reference dangles, and for every `n` when references form a cycle.

While references lead backwards, expansion ends: as many steps as there are entries are enough, and
further ones change nothing (`Registry.expand_of_refersInto`).
-/
namespace Schemata

namespace Json

mutual

/-- Replace the references at a place of a value. -/
def expandAt (φ : String → Option Json) : Place → Json → Option Json
  | p, .array vs => if p.items then (expandItems φ vs).map .array else some (.array vs)
  | p, .object ms =>
    if p.members then (expandMembers φ ms).map .object
    else if p.whole then
      match (Members.get? ms refKey).bind string? with
      | some text => φ text
      | none => (expandKeywords φ ms).map .object
    else some (.object ms)
  | _, v => some v

/-- Replace the references in schemas one by one. -/
def expandItems (φ : String → Option Json) : List Json → Option (List Json)
  | [] => some []
  | v :: vs => do
    let w ← expandAt φ Place.schema v
    let ws ← expandItems φ vs
    return w :: ws

def expandMembers (φ : String → Option Json) : List (String × Json) → Option (Members Json)
  | [] => some []
  | (name, v) :: ms => do
    let w ← expandAt φ Place.schema v
    let ws ← expandMembers φ ms
    return (name, w) :: ws

def expandKeywords (φ : String → Option Json) : List (String × Json) → Option (Members Json)
  | [] => some []
  | (name, v) :: ms => do
    let w ← expandAt φ (Place.ofKeyword name) v
    let ws ← expandKeywords φ ms
    return (name, w) :: ws

end

def expandWith (φ : String → Option Json) (v : Json) : Option Json := expandAt φ Place.schema v

theorem expandAt_nowhere (φ : String → Option Json) (v : Json) : expandAt φ {} v = some v := by
  cases v <;> rfl

theorem expandAt_whole (φ : String → Option Json) {p : Place} (hmembers : p.members = false)
    (hwhole : p.whole = true) (ms : Members Json) :
    expandAt φ p (.object ms) = (object ms).expandWith φ := by
  rw [expandAt, hmembers, hwhole]
  rfl

theorem expandKeywords_append {φ : String → Option Json} : ∀ {ms ns us ws : Members Json},
    expandKeywords φ ms = some us → expandKeywords φ ns = some ws →
      expandKeywords φ (ms ++ ns) = some (us ++ ws)
  | [], _, _, _, hms, hns => by
    cases hms
    exact hns
  | (name, v) :: ms, ns, us, ws, hms, hns => by
    rw [expandKeywords] at hms
    cases hw : expandAt φ (Place.ofKeyword name) v with
    | none =>
      rw [hw] at hms
      cases hms
    | some w =>
      cases hus : expandKeywords φ ms with
      | none =>
        rw [hw, hus] at hms
        cases hms
      | some us' =>
        rw [hw, hus] at hms
        cases hms
        rw [List.cons_append, expandKeywords, hw, expandKeywords_append hus hns]
        rfl

theorem expandWith_object {φ : String → Option Json} {ms : Members Json}
    (h : refKey ∉ Members.names ms) :
    (object ms).expandWith φ = (expandKeywords φ ms).map .object := by
  rw [expandWith, expandAt, Members.get?_eq_none_iff.2 h]
  rfl

/-- The path a reference names: what follows the number sign. -/
def pathOf? (text : String) : Option String :=
  match text.toList with
  | '#' :: path => some (String.ofList path)
  | _ => none

theorem pathOf?_reference (q : String) : pathOf? ("#" ++ q) = some q := by
  have h : ("#" ++ q).toList = '#' :: q.toList := by simp
  rw [pathOf?, h]
  simp

/-! ## Expansion is decided by what the references say -/

section

variable {ι : Type} {φ : ι → String → Option Json}

/-- All of some tables say the same of what a value refers to. -/
def Agreed (φ : ι → String → Option Json) (v : Json) : Prop :=
  ∀ w, StandsIn w v → ∀ text, w.target? = some text → ∃ u, ∀ i, φ i text = some u

theorem Agreed.inside {v s : Json} (h : Agreed φ v) (hs : s ∈ v.subschemas) : Agreed φ s :=
  fun w hw => h w (.inside hs hw)

mutual

theorem exists_expandAt : ∀ (p : Place) (v : Json), (∀ s ∈ p.schemas v, Agreed φ s) →
    ∃ u, ∀ i, expandAt (φ i) p v = some u
  | _, .null, _ => ⟨.null, fun _ => by simp only [expandAt]⟩
  | _, .bool b, _ => ⟨.bool b, fun _ => by simp only [expandAt]⟩
  | _, .number x, _ => ⟨.number x, fun _ => by simp only [expandAt]⟩
  | _, .string s, _ => ⟨.string s, fun _ => by simp only [expandAt]⟩
  | p, .array vs, h => by
    by_cases hp : p.items = true
    · have hvs : ∀ s ∈ vs, Agreed φ s := by simpa only [Place.schemas, hp, if_true] using h
      obtain ⟨us, hus⟩ := exists_expandItems vs hvs
      exact ⟨.array us, fun i => by rw [expandAt, if_pos hp, hus i]; rfl⟩
    · exact ⟨.array vs, fun i => by rw [expandAt, if_neg hp]⟩
  | p, .object ms, h => by
    by_cases hm : p.members = true
    · have hms : ∀ m ∈ ms, Agreed φ m.2 := fun m hmem =>
        h m.2 (by simpa only [Place.schemas, hm, if_true] using List.mem_map_of_mem hmem)
      obtain ⟨us, hus⟩ := exists_expandMembers ms hms
      exact ⟨.object us, fun i => by rw [expandAt, if_pos hm, hus i]; rfl⟩
    · by_cases hw : p.whole = true
      · have hv : Agreed φ (.object ms) := by
          refine h _ ?_
          rw [Place.schemas, if_neg hm, if_pos hw]
          exact List.mem_singleton_self _
        cases ht : (Members.get? ms refKey).bind string? with
        | some text =>
          obtain ⟨u, hu⟩ := hv _ .self text ht
          exact ⟨u, fun i => by rw [expandAt, if_neg hm, if_pos hw, ht]; exact hu i⟩
        | none =>
          have hms : ∀ m ∈ ms, ∀ s ∈ (Place.ofKeyword m.1).schemas m.2, Agreed φ s :=
            fun m hmem s hs => hv.inside (List.mem_flatMap.2 ⟨m, hmem, hs⟩)
          obtain ⟨us, hus⟩ := exists_expandKeywords ms hms
          exact ⟨.object us, fun i => by
            rw [expandAt, if_neg hm, if_pos hw, ht]
            simp only [hus i, Option.map_some]⟩
      · exact ⟨.object ms, fun i => by rw [expandAt, if_neg hm, if_neg hw]⟩

theorem exists_expandItems : ∀ vs : List Json, (∀ s ∈ vs, Agreed φ s) →
    ∃ us, ∀ i, expandItems (φ i) vs = some us
  | [], _ => ⟨[], fun _ => rfl⟩
  | v :: vs, h => by
    rw [List.forall_mem_cons] at h
    obtain ⟨u, hu⟩ := exists_expandAt Place.schema v fun s hs =>
      Place.eq_of_mem_schemas_schema hs ▸ h.1
    obtain ⟨us, hus⟩ := exists_expandItems vs h.2
    exact ⟨u :: us, fun i => by rw [expandItems, hu i, hus i]; rfl⟩

theorem exists_expandMembers : ∀ ms : List (String × Json), (∀ m ∈ ms, Agreed φ m.2) →
    ∃ us, ∀ i, expandMembers (φ i) ms = some us
  | [], _ => ⟨[], fun _ => rfl⟩
  | (name, v) :: ms, h => by
    rw [List.forall_mem_cons] at h
    obtain ⟨u, hu⟩ := exists_expandAt Place.schema v fun s hs =>
      Place.eq_of_mem_schemas_schema hs ▸ h.1
    obtain ⟨us, hus⟩ := exists_expandMembers ms h.2
    exact ⟨(name, u) :: us, fun i => by rw [expandMembers, hu i, hus i]; rfl⟩

theorem exists_expandKeywords : ∀ ms : List (String × Json),
    (∀ m ∈ ms, ∀ s ∈ (Place.ofKeyword m.1).schemas m.2, Agreed φ s) →
      ∃ us, ∀ i, expandKeywords (φ i) ms = some us
  | [], _ => ⟨[], fun _ => rfl⟩
  | (name, v) :: ms, h => by
    rw [List.forall_mem_cons] at h
    obtain ⟨u, hu⟩ := exists_expandAt (Place.ofKeyword name) v h.1
    obtain ⟨us, hus⟩ := exists_expandKeywords ms h.2
    exact ⟨(name, u) :: us, fun i => by rw [expandKeywords, hu i, hus i]; rfl⟩

end

theorem exists_expandWith {v : Json} (h : Agreed φ v) : ∃ u, ∀ i, v.expandWith (φ i) = some u :=
  exists_expandAt Place.schema v fun _ hs => Place.eq_of_mem_schemas_schema hs ▸ h

end

end Json

namespace Registry

/-- **Expand a schema** along at most so many references one after the other. -/
def expand (r : Registry) : Nat → Json → Option Json
  | 0, v => v.expandWith fun _ => none
  | n + 1, v => v.expandWith fun text => ((Json.pathOf? text).bind r.get?).bind (expand r n)

/-- What a reference is replaced by when at most so many may be followed. -/
def table (r : Registry) : Nat → String → Option Json
  | 0, _ => none
  | n + 1, text => ((Json.pathOf? text).bind r.get?).bind (r.expand n)

theorem expand_eq (r : Registry) (n : Nat) (v : Json) : r.expand n v = v.expandWith (r.table n) := by
  cases n <;> rfl

theorem table_reference {r : Registry} {path : String} {schema : Json}
    (h : r.get? path = some schema) (n : Nat) :
    r.table (n + 1) ("#" ++ path) = r.expand n schema := by
  rw [table, Json.pathOf?_reference, Option.bind_some, h, Option.bind_some]

theorem expand_reference {r : Registry} {path : String} {schema : Json}
    (h : r.get? path = some schema) (n : Nat) :
    r.expand (n + 1) (.reference path) = r.expand n schema := by
  rw [expand_eq, ← table_reference h]
  rfl

theorem get?_of_entries {r : Registry} {earlier later : Members Json} {path : String}
    {schema : Json} (h : r.entries = earlier ++ (path, schema) :: later) :
    r.get? path = some schema := by
  have hn := r.nodup_paths
  rw [h, Members.names, List.map_append, List.map_cons, List.nodup_append] at hn
  have hp : path ∉ Members.names earlier := fun hmem =>
    hn.2.2 path hmem path List.mem_cons_self rfl
  rw [get?, h, Members.get?_append_of_not_mem _ hp]
  simp [Members.get?]

/-- A path among the first `k` is that of an entry before `k`. -/
theorem exists_split_of_mem_names_take {ms : Members Json} {k : Nat} {path : String}
    (h : path ∈ Members.names (ms.take k)) :
    ∃ i < k, ∃ schema, ms = ms.take i ++ (path, schema) :: ms.drop (i + 1) := by
  obtain ⟨⟨p, schema⟩, hmem, rfl⟩ := List.mem_map.1 h
  obtain ⟨i, hi, hget⟩ := List.mem_iff_getElem.1 hmem
  rw [List.getElem_take] at hget
  rw [List.length_take] at hi
  refine ⟨i, by omega, schema, ?_⟩
  rw [← hget, ← List.drop_eq_getElem_cons, List.take_append_drop]

/-- **Expansion ends.**  While references lead backwards, a schema that refers into the first `k`
paths expands along `k` references, and further ones change nothing. -/
theorem expand_of_refersInto {r : Registry} (hr : r.RefersBack) (k : Nat) :
    ∀ {v : Json}, v.RefersInto (Members.names (r.entries.take k)) →
      ∃ u, ∀ n, k ≤ n → r.expand n v = some u := by
  induction k using Nat.strongRecOn with
  | ind k ih =>
    intro v hv
    -- The tables of all steps from `k` on agree on what `v` refers to: it is stored before `k`.
    have hagreed : Json.Agreed (fun n : {n // k ≤ n} => r.table n.1) v := by
      intro w hw text ht
      obtain ⟨q, hq, rfl⟩ := hv w hw text ht
      rw [Json.target?_reference] at ht
      cases ht
      obtain ⟨i, hi, schema, hsplit⟩ := exists_split_of_mem_names_take hq
      obtain ⟨u, hu⟩ := ih i hi (hr _ _ _ _ hsplit)
      refine ⟨u, fun ⟨n, hn⟩ => ?_⟩
      obtain ⟨n, rfl⟩ : ∃ m, n = m + 1 := ⟨n - 1, by omega⟩
      exact (table_reference (get?_of_entries hsplit) n).trans (hu n (by omega))
    obtain ⟨u, hu⟩ := Json.exists_expandWith hagreed
    refine ⟨u, fun n hn => ?_⟩
    rw [expand_eq]
    exact hu ⟨n, hn⟩

end Registry
end Schemata
