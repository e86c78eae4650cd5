import Schemata.Fragment.Basic
import Schemata.Proofs.Growth
/-!
# Place — where schemas stand in a schema

A schema is an object, and some of its keywords hold further schemas: as their value, as the items
of an array or under the names of an object.  Only there does a `$ref` mean anything; in a default,
an example or metadata it is data.  `Json.StandsIn` says that a value stands at such a place, however
deep, and `Json.RefersInto` that every reference of a schema is a plain reference to one of some
paths.
-/
namespace Schemata

/-- Where schemas stand in the value of a keyword. -/
structure Place where
  /-- The value is a schema, if it is an object. -/
  whole : Bool := false
  /-- The items of the value are schemas, if it is an array. -/
  items : Bool := false
  /-- The values of its members are schemas, if it is an object. -/
  members : Bool := false
  deriving DecidableEq

namespace Place

def schema : Place := { whole := true }

/-- The place of schemas under a keyword. -/
def ofKeyword (name : String) : Place :=
  if name = "properties" ∨ name = "patternProperties" then { members := true }
  else if name = "items" then { whole := true, items := true }
  else if name = "additionalItems" then { whole := true }
  else if name = "anyOf" ∨ name = "oneOf" ∨ name = "allOf" then { items := true }
  else {}

/-- The schemas at a place of a value. -/
def schemas (p : Place) : Json → List Json
  | .array vs => if p.items then vs else []
  | .object ms => if p.members then ms.map Prod.snd else if p.whole then [.object ms] else []
  | _ => []

theorem members_eq_false_of_whole {name : String} (h : (ofKeyword name).whole = true) :
    (ofKeyword name).members = false := by
  revert h
  unfold ofKeyword
  split
  · exact fun h => by cases h
  · split
    · exact fun _ => rfl
    · split
      · exact fun _ => rfl
      · split <;> exact fun _ => rfl

theorem schemas_nowhere (v : Json) : ({} : Place).schemas v = [] := by cases v <;> rfl

theorem schemas_of_whole {name : String} (h : (ofKeyword name).whole = true)
    (ms : Members Json) : (ofKeyword name).schemas (.object ms) = [.object ms] := by
  rw [schemas, members_eq_false_of_whole h, h]
  rfl

theorem mem_schemas_array {p : Place} {vs : List Json} {s : Json} (h : s ∈ p.schemas (.array vs)) :
    s ∈ vs := by
  rw [schemas] at h
  split at h
  · exact h
  · exact absurd h List.not_mem_nil

theorem eq_of_mem_schemas_schema {v s : Json} (h : s ∈ schema.schemas v) : s = v := by
  cases v with
  | object ms => exact List.mem_singleton.1 h
  | null | bool | number | string | array => exact absurd h List.not_mem_nil

end Place

/-- The name of the keyword that holds a reference. -/
def Json.refKey : String := "$ref"

/-- **A plain keyword** holds no schema, no reference and no metadata. -/
def IsPlain (name : String) : Prop :=
  Place.ofKeyword name = {} ∧ name ≠ Json.refKey ∧ name ≠ Fragment.bagKey

instance (name : String) : Decidable (IsPlain name) :=
  inferInstanceAs (Decidable (_ ∧ _ ∧ _))

namespace Json

def subschemas : Json → List Json
  | .object ms => ms.flatMap fun m => (Place.ofKeyword m.1).schemas m.2
  | _ => []

/-- **A value stands at a schema place** of another, however deep. -/
inductive StandsIn (w : Json) : Json → Prop where
  | self : StandsIn w w
  | inside {v s : Json} : s ∈ v.subschemas → StandsIn w s → StandsIn w v

/-- What a schema refers to: its `$ref`, if that is a string. -/
def target? (v : Json) : Option String := (v.field? refKey).bind string?

/-- **Every reference is a plain reference to one of the paths.** -/
def RefersInto (paths : List String) (v : Json) : Prop :=
  ∀ w, StandsIn w v → ∀ text, w.target? = some text → ∃ q ∈ paths, w = .reference q

theorem refersInto_iff {paths : List String} {v : Json} :
    v.RefersInto paths ↔
      (∀ text, v.target? = some text → ∃ q ∈ paths, v = .reference q) ∧
      ∀ s ∈ v.subschemas, s.RefersInto paths := by
  constructor
  · intro h
    exact ⟨h v .self, fun s hs w hw => h w (.inside hs hw)⟩
  · rintro ⟨hv, hs⟩ w hw
    cases hw with
    | self => exact hv
    | inside hmem hw => exact hs _ hmem w hw

theorem RefersInto.mono {paths more : List String} {v : Json} (h : v.RefersInto paths)
    (hsub : ∀ q ∈ paths, q ∈ more) : v.RefersInto more := by
  intro w hw text ht
  obtain ⟨q, hq, rfl⟩ := h w hw text ht
  exact ⟨q, hsub q hq, rfl⟩

theorem target?_reference (q : String) : (reference q).target? = some ("#" ++ q) := rfl

theorem subschemas_reference (q : String) : (reference q).subschemas = [] := rfl

theorem refersInto_reference {paths : List String} {q : String} (hq : q ∈ paths) :
    (reference q).RefersInto paths := by
  rw [refersInto_iff, subschemas_reference]
  exact ⟨fun _ _ => ⟨q, hq, rfl⟩, fun s hs => absurd hs List.not_mem_nil⟩

/-- An object refers as its keywords do, when none of them is a reference. -/
theorem refersInto_object {paths : List String} {ms : Members Json}
    (href : ∀ v, (refKey, v) ∈ ms → v.string? = none)
    (h : ∀ m ∈ ms, ∀ s ∈ (Place.ofKeyword m.1).schemas m.2, s.RefersInto paths) :
    (Json.object ms).RefersInto paths := by
  rw [refersInto_iff]
  constructor
  · intro text ht
    rw [target?, Option.bind_eq_some_iff] at ht
    obtain ⟨v, hv, hs⟩ := ht
    rw [href v (Members.mem_of_get?_eq_some hv)] at hs
    cases hs
  · intro s hs
    obtain ⟨m, hm, hs⟩ := List.mem_flatMap.1 hs
    exact h m hm s hs

end Json

/-! ## References to registered paths -/

namespace Registry

/-- **References lead backwards**: what a stored schema refers to was registered before it. -/
def RefersBack (r : Registry) : Prop :=
  ∀ earlier path schema later, r.entries = earlier ++ (path, schema) :: later →
    schema.RefersInto (Members.names earlier)

theorem refersBack_empty : RefersBack {} := by
  intro earlier path schema later h
  cases earlier <;> cases h

/-- Registering a schema that refers to what is there keeps references backwards. -/
theorem RefersBack.register {r : Registry} (hr : r.RefersBack) {path : String} {schema : Json}
    (hs : schema.RefersInto r.paths) : (r.register path schema).RefersBack := by
  by_cases hp : r.contains path = true
  · rw [register_of_contains hp]
    exact hr
  · intro earlier p s later h
    rw [entries_register_of_not_contains hp] at h
    rcases List.append_eq_append_iff.1 h with ⟨mid, h₁, h₂⟩ | ⟨mid, h₁, h₂⟩
    · cases mid with
      | nil =>
        rw [List.append_nil] at h₁
        cases h₂
        rw [h₁]
        exact hs
      | cons m mid =>
        have hnil : [] = mid ++ (p, s) :: later := (List.cons.inj h₂).2
        simp at hnil
    · cases mid with
      | nil =>
        rw [List.append_nil] at h₁
        cases h₂
        rw [← h₁]
        exact hs
      | cons m mid =>
        rw [List.cons_append] at h₂
        obtain ⟨rfl, -⟩ := List.cons.inj h₂
        exact hr earlier p s mid h₁

end Registry
end Schemata
