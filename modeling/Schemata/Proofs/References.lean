import Schemata.Proofs.Expansion
import Schemata.Proofs.Session
import Schemata.Proofs.Simulation
/-!
# References — no reference dangles and none leads in a circle

What a conversion gives refers to registered paths only, and what it stores refers to paths that were
registered before: when a node is registered, everything below it is converted already, and its own
path is still free.  This holds at every point of a run, so a failure cannot break it.  With it,
expansion ends (`Converter.references_resolve`).

The proof runs a conversion beside itself.  Both registries are the same, and schemas correspond when
they are the same and refer to what is registered.
-/
namespace Schemata

open List (Forall₂)

/-! ## Schemas that refer to some paths -/

/-- The same schema, an object that refers to some paths only. -/
structure Json.SameInto (paths : List String) (v w : Json) : Prop where
  eq : v = w
  isObject : ∃ ms, v = .object ms
  refersInto : v.RefersInto paths

/-- The same value of a keyword, whose schemas refer to some paths only. -/
structure Json.SameUnder (paths : List String) (name : String) (v w : Json) : Prop where
  eq : v = w
  refersInto : ∀ s ∈ (Place.ofKeyword name).schemas v, s.RefersInto paths
  notReference : name = Json.refKey → v.string? = none

theorem forall₂_sameInto {paths : List String} {vs ws : List Json}
    (h : Forall₂ (Json.SameInto paths) vs ws) : vs = ws ∧ ∀ v ∈ vs, v.RefersInto paths := by
  induction h with
  | nil => exact ⟨rfl, fun _ hv => absurd hv List.not_mem_nil⟩
  | cons hv _ ih =>
    obtain ⟨rfl, -, hv⟩ := hv
    exact ⟨congrArg _ ih.1, List.forall_mem_cons.2 ⟨hv, ih.2⟩⟩

theorem rel_sameInto {paths : List String} {ms ns : Members Json}
    (h : Members.Rel (fun _ => Json.SameInto paths) ms ns) :
    ms = ns ∧ ∀ m ∈ ms, m.2.RefersInto paths := by
  induction h with
  | nil => exact ⟨rfl, fun _ hm => absurd hm List.not_mem_nil⟩
  | cons hm _ ih =>
    obtain ⟨hname, hv, -, hrefers⟩ := hm
    exact ⟨congrArg₂ _ (Prod.ext hname hv) ih.1, List.forall_mem_cons.2 ⟨hrefers, ih.2⟩⟩

theorem rel_sameUnder {paths : List String} {ms ns : Members Json}
    (h : Members.Rel (Json.SameUnder paths) ms ns) :
    ms = ns ∧ ∀ m ∈ ms, Json.SameUnder paths m.1 m.2 m.2 := by
  induction h with
  | nil => exact ⟨rfl, fun _ hm => absurd hm List.not_mem_nil⟩
  | cons hm _ ih =>
    obtain ⟨hname, hv, hrefers, href⟩ := hm
    exact ⟨congrArg₂ _ (Prod.ext hname hv) ih.1,
      List.forall_mem_cons.2 ⟨⟨rfl, hrefers, href⟩, ih.2⟩⟩

/-- The items of an array may stand under every keyword, be it a place of schemas or not. -/
theorem sameUnder_array {paths : List String} {vs ws : List Json}
    (h : Forall₂ (Json.SameInto paths) vs ws) (name : String) :
    Json.SameUnder paths name (.array vs) (.array ws) := by
  obtain ⟨rfl, hvs⟩ := forall₂_sameInto h
  exact ⟨rfl, fun s hs => hvs s (Place.mem_schemas_array hs), fun _ => rfl⟩

/-- The same schemas, referring to some paths only. -/
def Correspondence.refersInto (paths : List String) : Correspondence where
  Schema := Json.SameInto paths
  Keyword := Json.SameUnder paths
  plain := by
    rintro name v ⟨hplace, href, -⟩
    refine ⟨rfl, fun s hs => ?_, fun h => absurd h href⟩
    rw [hplace, Place.schemas_nowhere] at hs
    exact absurd hs List.not_mem_nil
  whole := by
    rintro name v _ hwhole ⟨rfl, ⟨ms, rfl⟩, hv⟩
    refine ⟨rfl, fun s hs => ?_, fun _ => rfl⟩
    rw [Place.schemas_of_whole hwhole] at hs
    rwa [List.mem_singleton.1 hs]
  items := fun _ h => sameUnder_array h _
  members := by
    intro name ms ns hmembers h
    obtain ⟨rfl, hms⟩ := rel_sameInto h
    refine ⟨rfl, fun s hs => ?_, fun _ => rfl⟩
    rw [Place.schemas, if_pos hmembers] at hs
    obtain ⟨m, hm, rfl⟩ := List.mem_map.1 hs
    exact hms m hm
  anyOf := by
    intro vs ws h
    obtain ⟨rfl, hvs⟩ := forall₂_sameInto h
    refine ⟨rfl, ⟨_, rfl⟩, Json.refersInto_object ?_ ?_⟩
    · intro v hv
      exact absurd (congrArg Prod.fst (List.mem_singleton.1 hv)) (by decide : Json.refKey ≠ "anyOf")
    · intro m hm s hs
      rw [List.mem_singleton.1 hm] at hs
      exact hvs s (Place.mem_schemas_array hs)

theorem refersInto_toJson {paths : List String} {f : Fragment}
    (h : ∀ m ∈ f.keywords, Json.SameUnder paths m.1 m.2 m.2) : f.toJson.RefersInto paths := by
  refine Json.refersInto_object (fun v hv => ?_) fun m hm s hs => ?_
  · rcases Fragment.mem_toMembers hv with hv | hname
    · exact (h _ hv).notReference rfl
    · exact absurd hname (by decide : Json.refKey ≠ Fragment.bagKey)
  · rcases Fragment.mem_toMembers hm with hm | hname
    · exact (h m hm).refersInto s hs
    · rw [hname] at hs
      exact absurd (Place.schemas_nowhere m.2 ▸ hs) List.not_mem_nil

theorem fragments_refersInto {paths : List String} {f g : Fragment}
    (h : (Correspondence.refersInto paths).Fragments f g) :
    f = g ∧ ∀ m ∈ f.keywords, Json.SameUnder paths m.1 m.2 m.2 := by
  obtain ⟨hkeywords, -, hbag, hslot⟩ := h
  obtain ⟨heq, hf⟩ := rel_sameUnder hkeywords
  obtain ⟨fk, fb, fs⟩ := f
  obtain ⟨gk, gb, gs⟩ := g
  cases heq
  cases hbag
  cases hslot
  exact ⟨rfl, hf⟩

/-! ## A conversion beside itself -/

/-- One run beside itself, from a registry whose references lead backwards. -/
def Simulation.references : Simulation where
  Agree _ r s := r = s ∧ r.RefersBack
  values r _ := Correspondence.refersInto r.paths
  agree_sublist := fun _ h => h
  schema_mono := fun hr _ hv =>
    ⟨hv.eq, hv.isObject, hv.refersInto.mono fun _ => Registry.paths_subset hr⟩

namespace Description

open Simulation (references)

variable {o : Options} {other : Description → Conversion (Option Json)}

/-- Registration keeps references backwards: what is registered refers to what is there by then. -/
theorem references_extracted {later : List Description} {r : Registry} (hr : r.RefersBack)
    {f : Fragment} {c d : Conversion Fragment}
    (h : references.Meets later (references.Kinds f) r r (c.run r) (d.run r)) (path : String) :
    references.Meets later references.Result r r
      ((Conversion.extracted path (some <$> c)).run r)
      ((Conversion.extracted path (some <$> d)).run r) := by
  have href : ∀ {r' : Registry}, path ∈ r'.paths →
      references.Result r' r' (some (.reference path)) (some (.reference path)) :=
    fun hp => .some ⟨rfl, ⟨_, rfl⟩, Json.refersInto_reference hp⟩
  by_cases hp : r.contains path = true
  · rw [Conversion.run_extracted_of_contains hp, Conversion.run_extracted_of_contains hp]
    exact .ok le_rfl le_rfl ⟨rfl, hr⟩ (href (Registry.contains_iff.1 hp))
  · rw [Conversion.run_extracted_of_not_contains hp, Conversion.run_extracted_of_not_contains hp,
      Conversion.run_map, Conversion.run_map]
    rcases hc : c.run r with ⟨e | g, r₁⟩ <;> rcases hd : d.run r with ⟨e' | g', s₁⟩ <;>
      rw [hc, hd] at h <;> cases h
    · rename_i hr₁ hs₁ hagree
      exact .error hr₁ hs₁ hagree
    · rename_i hr₁ hs₁ hagree hg
      obtain ⟨rfl, hback⟩ := hagree
      obtain ⟨rfl, hkeywords⟩ := fragments_refersInto hg.fragments
      have hwritten : g.takeExtract.2.toJson.RefersInto r₁.paths :=
        refersInto_toJson (by rwa [Fragment.keywords_takeExtract])
      have hle := le_trans hr₁ (r₁.le_register path g.takeExtract.2.toJson)
      exact .ok hle hle ⟨rfl, hback.register hwritten⟩
        (href (Registry.mem_paths_register.2 (.inr rfl)))

theorem references_node (ho : o.handlers = []) (d : Description) (b b' : Below)
    (hb : b.Relates references d b') :
    references.Relates d.nodes references.Result (convertNode o other d b)
      (convertNode o other d b') := by
  have hresolve := Options.resolve_of_no_handlers ho d.typeName
  cases hk : Kind.ofName? d.typeName with
  | none =>
    have hnone : o.resolve d.typeName = none := by rw [hresolve, hk]; rfl
    exact Simulation.unknown hnone hnone rfl b b'
  | some kind =>
    have hsome : o.resolve d.typeName = some (.inr kind) := by rw [hresolve, hk]; rfl
    rintro later r _ ⟨rfl, hback⟩
    rw [convertNode_of_kind hsome, convertNode_of_kind hsome]
    have hterm : references.TermFits (d.commonFragment d.leadingFragment) :=
      fun r s vs ws h => sameUnder_array h _
    have hkind := Simulation.kind o.toSettings kind (d.plain_commonFragment d.plain_leadingFragment)
      (fun _ => hterm) hb later r r ⟨rfl, hback⟩
    cases o.toSettings.extraction? d.leadingFragment with
    | some path => exact references_extracted hback hkind path
    | none =>
      refine hkind.inline fun r' s' g g' hg => ?_
      obtain ⟨rfl, hkeywords⟩ := fragments_refersInto hg.fragments
      exact ⟨rfl, ⟨_, rfl⟩, refersInto_toJson hkeywords⟩

/-- Without handlers, a conversion keeps references backwards, however it ends, and what it gives
refers to registered paths. -/
theorem convert_references (ho : o.handlers = []) (d : Description) {r : Registry}
    (hr : r.RefersBack) :
    ((d.convert o).run r).2.RefersBack ∧
      ∀ v, ((d.convert o).run r).1 = .ok (some v) →
        v.RefersInto ((d.convert o).run r).2.paths := by
  have h : references.Meets [] references.Result r r ((d.convert o).run r) ((d.convert o).run r) :=
    Simulation.convertWith (references_node ho) d [] r r ⟨rfl, hr⟩
  rcases hrun : (d.convert o).run r with ⟨e | a, r'⟩ <;> rw [hrun] at h <;> cases h
  · rename_i hagree
    exact ⟨hagree.2, fun v hv => by cases hv⟩
  · rename_i hagree hq
    refine ⟨hagree.2, fun v hv => ?_⟩
    cases hv
    cases hq with
    | some hv => exact hv.refersInto

end Description

namespace Registry

/-- **A schema resolves**: its references are to registered paths, and expansion ends after as many
of them, one after the other, as there are entries. -/
def Resolves (r : Registry) (v : Json) : Prop :=
  v.RefersInto r.paths ∧ ∃ u, ∀ n, r.size ≤ n → r.expand n v = some u

theorem resolves_of_refersInto {r : Registry} (hr : r.RefersBack) {v : Json}
    (hv : v.RefersInto r.paths) : r.Resolves v := by
  refine ⟨hv, expand_of_refersInto hr r.size ?_⟩
  rw [size, List.take_length]
  exact hv

theorem RefersBack.resolves {r : Registry} (hr : r.RefersBack) {path : String} {v : Json}
    (h : r.get? path = some v) : r.Resolves v := by
  obtain ⟨earlier, later, hsplit⟩ := List.append_of_mem (Members.mem_of_get?_eq_some h)
  refine resolves_of_refersInto hr ((hr earlier path v later hsplit).mono fun q hq => ?_)
  rw [paths, hsplit, Members.names, List.map_append]
  exact List.mem_append_left _ hq

end Registry

namespace Converter

theorem callAll_refersBack {c : Converter} (ho : c.options.handlers = [])
    (hr : c.registry.RefersBack) (calls : List Call) :
    ∃ r, c.callAll calls = ⟨c.options, r⟩ ∧ r.RefersBack :=
  callAll_induction (fun d _ h => (d.convert_references ho h).1) calls hr

/-- **No reference dangles and none leads in a circle**: after every call of a session, stored
schemas refer to what was registered before them, and these and the returned value resolve. -/
theorem references_resolve {c after : Converter} (ho : c.options.handlers = [])
    (hr : c.registry.RefersBack) (calls : List Call) (x : Call)
    {result : Except ConvertError (Option Json)} (h : (c.callAll calls).call x = (result, after)) :
    after.registry.RefersBack ∧
      (∀ path v, after.registry.get? path = some v → after.registry.Resolves v) ∧
      ∀ v, result = .ok (some v) → after.registry.Resolves v := by
  suffices hkept : after.registry.RefersBack ∧
      ∀ v, result = .ok (some v) → v.RefersInto after.registry.paths from
    ⟨hkept.1, fun _ _ => hkept.1.resolves,
      fun v hv => Registry.resolves_of_refersInto hkept.1 (hkept.2 v hv)⟩
  obtain ⟨r, hs, hback⟩ := callAll_refersBack ho hr calls
  rw [hs] at h
  cases hx : x.read with
  | error e =>
    rw [call_of_refused hx] at h
    cases h
    exact ⟨hback, fun v hv => by cases hv⟩
  | ok d =>
    rw [call_of_read hx, convertDescription_eq] at h
    cases h
    exact d.convert_references ho hback

/-- A named object with a named child, converted after a call that failed. -/
theorem references_resolve_nested :
    let child := (Description.ofType "string").withMeta [("extract", .string "Child")]
    let node := (Description.ofType "object").withMeta [("extract", .string "Node")]
    let c : Converter := ⟨{ extract := true }, {}⟩
    let after := ((c.callAll [.node (.ofType "unknown")]).call (.node (node.withChild "a" child))).2
    after.registry.paths = ["/Child", "/Node"] ∧ after.registry.RefersBack ∧
      after.registry.Resolves (.reference "/Node") := by
  intro child node c after
  have h := references_resolve (c := c) rfl Registry.refersBack_empty [.node (.ofType "unknown")]
    (.node (node.withChild "a" child)) rfl
  exact ⟨rfl, h.1, h.2.2 _ rfl⟩

end Converter
end Schemata
