import Schemata.Description.Build
import Schemata.Proofs.Simulation
import Schemata.Proofs.Unnamed
/-!
# Transparency — extraction only moves schemas

With and without extraction a description fails alike, is dropped alike and means the same: the
references of the first result, expanded through the registry, give the second one without the names
(`Description.convert_transparent`).  The paths of the named nodes must be free and distinct, and
branches must stand where schemas are looked for.

The proof runs the conversion with extraction beside the one without.  Schemas correspond at a
registry when, through it and every registry above, the first expands to the second without names.
-/
namespace Schemata

open List (Forall₂)

/-! ## Schemas that expand to schemas -/

/-- **A schema expands to another without its names**, through this registry and all above. -/
structure Registry.Unfolds (r : Registry) (v w : Json) : Prop where
  left : ∃ ms, v = .object ms
  right : ∃ ms, w = .object ms
  expand : ∀ s, r ≤ s → ∀ n, r.size ≤ n → s.expand n v = some w.unnamed

/-- The value of a keyword expands to another without its names. -/
structure Registry.UnfoldsUnder (r : Registry) (name : String) (v w : Json) : Prop where
  notReference : name ≠ Json.refKey
  notMeta : name ≠ Fragment.bagKey
  expand : ∀ s, r ≤ s → ∀ n, r.size ≤ n →
    Json.expandAt (s.table n) (Place.ofKeyword name) v = some (w.unnamedAt (Place.ofKeyword name))

namespace Registry

theorem Unfolds.mono {r r' : Registry} (hr : r ≤ r') {v w : Json} (h : r.Unfolds v w) :
    r'.Unfolds v w where
  left := h.left
  right := h.right
  expand := fun s hs n hn =>
    h.expand s (le_trans hr hs) n (Nat.le_trans (size_le_size hr) hn)

variable {r s : Registry} {n : Nat}

theorem expandItems_of_unfolds (hs : r ≤ s) (hn : r.size ≤ n) {vs ws : List Json}
    (h : Forall₂ r.Unfolds vs ws) :
    Json.expandItems (s.table n) vs = some (Json.unnamedItems ws) := by
  induction h with
  | nil => rfl
  | cons hv _ ih =>
    have hv := hv.expand s hs n hn
    rw [expand_eq, Json.expandWith] at hv
    rw [Json.expandItems, hv, ih]
    rfl

theorem expandMembers_of_unfolds (hs : r ≤ s) (hn : r.size ≤ n) {ms ns : Members Json}
    (h : Members.Rel (fun _ => r.Unfolds) ms ns) :
    Json.expandMembers (s.table n) ms = some (Json.unnamedMembers ns) := by
  induction h with
  | nil => rfl
  | @cons m m' ms ns hm _ ih =>
    obtain ⟨name, v⟩ := m
    obtain ⟨_, w⟩ := m'
    obtain ⟨rfl, hv⟩ := hm
    have hv := hv.expand s hs n hn
    rw [expand_eq, Json.expandWith] at hv
    rw [Json.expandMembers, hv, ih]
    rfl

theorem expandKeywords_of_unfolds (hs : r ≤ s) (hn : r.size ≤ n) {ms ns : Members Json}
    (h : Members.Rel r.UnfoldsUnder ms ns) :
    Json.expandKeywords (s.table n) ms = some (Json.unnamedKeywords ns) := by
  induction h with
  | nil => rfl
  | @cons m m' ms ns hm _ ih =>
    obtain ⟨name, v⟩ := m
    obtain ⟨_, w⟩ := m'
    obtain ⟨rfl, hv⟩ := hm
    rw [Json.expandKeywords, hv.expand s hs n hn, ih, Json.unnamedKeywords, if_neg hv.notMeta]
    rfl

theorem not_mem_names_of_unfolds {ms ns : Members Json}
    (h : Members.Rel r.UnfoldsUnder ms ns) :
    Json.refKey ∉ Members.names ms ∧ Fragment.bagKey ∉ Members.names ms := by
  induction h with
  | nil => exact ⟨List.not_mem_nil, List.not_mem_nil⟩
  | cons hm _ ih =>
    obtain ⟨-, hv⟩ := hm
    exact ⟨List.not_mem_cons_of_ne_of_not_mem hv.notReference.symm ih.1,
      List.not_mem_cons_of_ne_of_not_mem hv.notMeta.symm ih.2⟩

theorem unfoldsUnder_array {name : String} (hitems : (Place.ofKeyword name).items = true)
    {vs ws : List Json} (h : Forall₂ r.Unfolds vs ws) :
    r.UnfoldsUnder name (.array vs) (.array ws) where
  notReference := by
    rintro rfl
    exact absurd hitems (by decide)
  notMeta := by
    rintro rfl
    exact absurd hitems (by decide)
  expand := fun s hs n hn => by
    rw [Json.expandAt, if_pos hitems, expandItems_of_unfolds hs hn h, Json.unnamedAt,
      if_pos hitems]
    rfl

theorem Unfolds.reference {path : String} (hp : ¬r.contains path = true) {v w : Json}
    (h : r.Unfolds v w) : (r.register path v).Unfolds (.reference path) w where
  left := ⟨_, rfl⟩
  right := h.right
  expand := by
    intro s hs n hn
    rw [size_register_of_not_contains hp] at hn
    obtain ⟨n, rfl⟩ : ∃ m, n = m + 1 := ⟨n - 1, by omega⟩
    rw [expand_reference (get?_of_le hs (get?_register_of_not_contains hp v))]
    exact h.expand s (le_trans (r.le_register path v) hs) n (by omega)

end Registry

/-- Schemas that expand to schemas, through a registry and all above. -/
def Correspondence.unfolds (r : Registry) : Correspondence where
  Schema := r.Unfolds
  Keyword := r.UnfoldsUnder
  plain := by
    rintro name v ⟨hplace, href, hmeta⟩
    refine ⟨href, hmeta, fun s _ n _ => ?_⟩
    rw [hplace, Json.expandAt_nowhere, Json.unnamedAt_nowhere]
  whole := by
    rintro name v w hwhole ⟨⟨ms, rfl⟩, ⟨ns, rfl⟩, h⟩
    refine ⟨?_, ?_, fun s hs n hn => ?_⟩
    · rintro rfl
      exact absurd hwhole (by decide)
    · rintro rfl
      exact absurd hwhole (by decide)
    · have hmembers := Place.members_eq_false_of_whole hwhole
      rw [Json.expandAt_whole _ hmembers hwhole, Json.unnamedAt_whole hmembers hwhole,
        ← Registry.expand_eq]
      exact h s hs n hn
  items := fun hitems h => Registry.unfoldsUnder_array hitems h
  members := by
    intro name ms ns hmembers h
    refine ⟨?_, ?_, fun s hs n hn => ?_⟩
    · rintro rfl
      exact absurd hmembers (by decide)
    · rintro rfl
      exact absurd hmembers (by decide)
    · rw [Json.expandAt, if_pos hmembers, Registry.expandMembers_of_unfolds hs hn h,
        Json.unnamedAt, if_pos hmembers]
      rfl
  anyOf := by
    intro vs ws h
    refine ⟨⟨_, rfl⟩, ⟨_, rfl⟩, fun s hs n hn => ?_⟩
    have harray : Members.Rel r.UnfoldsUnder [("anyOf", .array vs)] [("anyOf", .array ws)] :=
      Members.rel_cons (Registry.unfoldsUnder_array (by decide) h) .nil
    have hkey : Json.refKey ∉ Members.names [("anyOf", Json.array vs)] :=
      (by decide : Json.refKey ∉ ["anyOf"])
    rw [Registry.expand_eq, Json.expandWith_object hkey,
      Registry.expandKeywords_of_unfolds hs hn harray]
    rfl

/-- **Written fragments that correspond**: the first as it is written once its node is registered,
the second as it is. -/
theorem unfolds_toJson {r : Registry} {f g : Fragment}
    (h : (Correspondence.unfolds r).Fragments f g) (hclean : ∀ b, g.bag = some b → b.Clean) :
    r.Unfolds f.registered.toJson g.toJson := by
  obtain ⟨hkeywords, hnodup, hbag, hslot⟩ := h
  obtain ⟨href, hmeta⟩ := Registry.not_mem_names_of_unfolds hkeywords
  have hnames := Members.Rel.names_eq hkeywords
  refine ⟨⟨_, rfl⟩, ⟨_, rfl⟩, fun s hs n hn => ?_⟩
  have htake := Registry.expandKeywords_of_unfolds hs hn (List.forall₂_take f.slot hkeywords)
  have hdrop := Registry.expandKeywords_of_unfolds hs hn (List.forall₂_drop f.slot hkeywords)
  have hwritten : Json.expandKeywords (s.table n) f.registered.toMembers =
      some (Json.unnamedKeywords g.toMembers) := by
    have hbagMembers : Json.expandKeywords (s.table n) (Fragment.bagMembers f.registered.bag) =
        some (Fragment.bagMembers f.registered.bag) := by
      cases f.registered.bag <;> rfl
    rw [Fragment.toMembers_eq (f := f.registered) hnodup hmeta,
      Fragment.unnamedKeywords_toMembers (hnames ▸ hnodup) (hnames ▸ hmeta) hclean, ← hslot]
    have hregistered : g.registered.bag = f.registered.bag := by
      rw [Fragment.registered, Fragment.registered, hbag]
    rw [hregistered]
    exact Json.expandKeywords_append (Json.expandKeywords_append htake hbagMembers) hdrop
  have hkey : Json.refKey ∉ Members.names f.registered.toMembers := by
    intro hmem
    obtain ⟨m, hm, hname⟩ := List.mem_map.1 hmem
    rcases Fragment.mem_toMembers hm with hm | hm
    · exact href (List.mem_map.2 ⟨m, hm, hname⟩)
    · exact absurd (hname.symm.trans hm) (by decide)
  rw [Registry.expand_eq, Fragment.toJson, Json.expandWith_object hkey, hwritten]
  rfl

/-! ## The conversion with extraction beside the one without -/

/-- The options with extraction on or off. -/
def Options.withExtract (o : Options) (x : Bool) : Options := { o with extract := x }

/-- Whether schemas are extracted makes no difference to a kind. -/
theorem Kind.convert_withExtract (kind : Kind) (o : Options) (x : Bool) (t : Traits)
    (below : Below) (f : Fragment) :
    kind.convert (o.withExtract x).toSettings t below f = kind.convert o.toSettings t below f := by
  cases kind <;> rfl

/-- The combinator that the metadata names, if any, has branches where schemas are looked for. -/
def Traits.KnowsTerm (t : Traits) : Prop :=
  ∀ v, t.mergedMeta.bind Bag.term = some v → v ∈ ["anyOf", "oneOf", "allOf"].map Json.string

/-- Branches of a node with a known combinator stand where schemas are looked for. -/
theorem Traits.KnowsTerm.items {t : Traits} (h : t.KnowsTerm) :
    (Place.ofKeyword ((t.commonFragment t.leadingFragment).takeTerm.1.getD
      Keywords.defaultCombinator)).items = true := by
  rw [(Traits.saysAs_commonFragment t).takeTerm_fst]
  cases hterm : t.mergedMeta.bind Bag.term with
  | none => decide
  | some v =>
    have hv := h v hterm
    simp only [List.map_cons, List.map_nil, List.mem_cons, List.not_mem_nil, or_false] at hv
    rcases hv with rfl | rfl | rfl <;> decide

/-- The nodes that are still to come have known combinators, and free and distinct paths. -/
structure Options.Awaits (o : Options) (later : List Description) (r : Registry) : Prop where
  terms : ∀ d ∈ later, d.KnowsTerm
  nodup : (o.pathsOf later).Nodup
  free : ∀ path ∈ o.pathsOf later, path ∉ r.paths

theorem Options.Awaits.sublist {o : Options} {later fewer : List Description} {r : Registry}
    (h : o.Awaits later r) (hs : fewer.Sublist later) : o.Awaits fewer r where
  terms := fun d hd => h.terms d (hs.subset hd)
  nodup := h.nodup.sublist (hs.filterMap _)
  free := fun path hp => h.free path ((hs.filterMap _).subset hp)

namespace Options.Awaits

variable {o : Options} {d : Description} {later : List Description} {r : Registry} {name : String}

theorem not_mem_paths (h : o.Awaits (d :: later) r) (hname : d.name? = some name) :
    o.extractionPath name ∉ r.paths := by
  refine h.free _ ?_
  rw [pathsOf_cons_of_name hname]
  exact List.mem_cons_self

/-- Once the next node is registered, its path is taken and none of the others. -/
theorem register (h : o.Awaits (d :: later) r) (hname : d.name? = some name) (schema : Json) :
    o.Awaits later (r.register (o.extractionPath name) schema) := by
  have hlater := h.sublist (List.sublist_cons_self d later)
  have hnodup := h.nodup
  rw [pathsOf_cons_of_name hname] at hnodup
  refine ⟨hlater.terms, hlater.nodup, fun path hp => ?_⟩
  rw [Registry.mem_paths_register]
  rintro (hmem | rfl)
  · exact hlater.free path hp hmem
  · exact (List.nodup_cons.1 hnodup).1 hp

end Options.Awaits

/-- One run with extraction beside one without. -/
def Simulation.transparency (o : Options) : Simulation where
  Agree later r _ := o.Awaits later r
  values r _ := Correspondence.unfolds r
  agree_sublist := fun hs h => h.sublist hs
  schema_mono := fun hr _ h => h.mono hr

namespace Description

open Simulation (transparency)

variable {o : Options} {other other' : Description → Conversion (Option Json)} {d : Description}

theorem termFits_of_knowsTerm (h : d.KnowsTerm) :
    (transparency o).TermFits (d.commonFragment d.leadingFragment) :=
  fun _ _ _ _ hschemas => Registry.unfoldsUnder_array h.items hschemas

/-- What a kind makes of the fragments of a node: its name is still in the bag, and with it taken
out the first is written as what expands to the second. -/
theorem unfolds_of_kinds {r s : Registry} {g g' : Fragment}
    (h : (transparency o).Kinds (d.commonFragment d.leadingFragment) r s g g') :
    g.bag.bind Bag.extractName? = d.name? ∧ r.Unfolds g.registered.toJson g'.toJson := by
  have hsaid := Traits.saysAs_commonFragment d.toTraits
  have hclean := hsaid.clean fun _ => Traits.clean_mergedMeta
  have hbag : g.bag.bind Bag.extractName? = d.name? ∧ ∀ b, g.bag = some b → b.Clean := by
    rcases h.bag with hb | hb
    · rw [hb]
      exact ⟨hsaid.name, hclean⟩
    · rw [hb, Fragment.name_takeTerm]
      exact ⟨hsaid.name, Fragment.clean_takeTerm hclean⟩
  refine ⟨hbag.1, unfolds_toJson h.fragments fun b hb => hbag.2 b ?_⟩
  rw [h.fragments.bag]
  exact hb

/-- A node that is registered on one side and written on the other: the reference expands to what
is written. -/
theorem transparent_extracted {later : List Description} {r s : Registry} {name : String}
    (hname : d.name? = some name) (hfree : o.extractionPath name ∉ r.paths)
    {c c' : Conversion Fragment}
    (h : (transparency o).Meets (d :: later)
      ((transparency o).Kinds (d.commonFragment d.leadingFragment)) r s (c.run r) (c'.run s)) :
    (transparency o).Meets later (transparency o).Result r s
      ((Conversion.extracted (o.extractionPath name) (some <$> c)).run r)
      ((Conversion.inline (some <$> c')).run s) := by
  have hlater : later.Sublist (d :: later) := List.sublist_cons_self d later
  rw [Conversion.inline_map_some, Conversion.run_map,
    Conversion.run_extracted_of_not_contains (mt Registry.contains_iff.1 hfree), Conversion.run_map]
  rcases hc : c.run r with ⟨e | g, r₁⟩ <;> rcases hc' : c'.run s with ⟨e' | g', s₁⟩ <;>
    rw [hc, hc'] at h <;> cases h
  · rename_i hr hs hagree
    exact .error hr hs (hagree.sublist hlater)
  · rename_i hr hs hagree hg
    obtain ⟨hgname, hunfolds⟩ := unfolds_of_kinds hg
    rw [← Fragment.registered_of_name (hgname.trans hname)] at hunfolds
    -- The path is still free: no node below has it.
    have hfree₁ := mt Registry.contains_iff.1 (hagree.not_mem_paths hname)
    exact .ok (le_trans hr (r₁.le_register _ _)) hs (hagree.register hname _)
      (.some (hunfolds.reference hfree₁))

theorem transparent_node (ho : o.handlers = []) (d : Description) (b b' : Below)
    (hb : b.Relates (transparency o) d b') :
    (transparency o).Relates d.nodes (transparency o).Result
      (convertNode (o.withExtract true) other d b)
      (convertNode (o.withExtract false) other' d b') := by
  have hresolve : ∀ x, (o.withExtract x).resolve d.typeName =
      (Kind.ofName? d.typeName).map .inr :=
    fun x => Options.resolve_of_no_handlers ho d.typeName
  cases hk : Kind.ofName? d.typeName with
  | none =>
    rw [hk] at hresolve
    exact Simulation.unknown (hresolve true) (hresolve false) rfl b b'
  | some kind =>
    rw [hk] at hresolve
    intro later r s hagree
    -- The node itself comes after those below it, so it is awaited until they are converted.
    rw [nodes_eq, List.append_assoc] at hagree
    have hd : d.KnowsTerm := hagree.terms d (by simp)
    have hkind := Simulation.kind o.toSettings kind
      (d.plain_commonFragment d.plain_leadingFragment) (fun _ => termFits_of_knowsTerm hd) hb
    rw [convertNode_of_kind (hresolve true), convertNode_of_kind (hresolve false),
      Kind.convert_withExtract, Kind.convert_withExtract, Traits.extraction?_leadingFragment,
      Traits.extraction?_leadingFragment]
    change (transparency o).Meets later (transparency o).Result r s
      ((Conversion.placed (d.name?.map o.extractionPath) _).run r) ((Conversion.inline _).run s)
    cases hname : d.name? with
    | none =>
      have hlater : (d.belowNodes ++ later).Sublist (d.belowNodes ++ ([d] ++ later)) :=
        (List.sublist_cons_self d later).append_left d.belowNodes
      refine (hkind later r s (hagree.sublist hlater)).inline fun r' s' g g' hg => ?_
      obtain ⟨hgname, hunfolds⟩ := unfolds_of_kinds hg
      rw [Fragment.registered_of_no_name (hgname.trans hname)] at hunfolds
      exact hunfolds
    | some name =>
      have hnode : o.Awaits (d :: later) r := hagree.sublist (List.sublist_append_right _ _)
      exact transparent_extracted hname (hnode.not_mem_paths hname)
        (hkind ([d] ++ later) r s hagree)

/-- **Extraction is transparent when names do not collide.**  With known combinators and with free
and distinct paths, a description fails with extraction as it does without, is dropped as it is
without, and otherwise becomes what expands through the registry to the schema without extraction,
the names taken out. -/
theorem convert_transparent (ho : o.handlers = []) {d : Description} {r : Registry}
    (hterms : ∀ e ∈ d.nodes, e.KnowsTerm) (hnodup : (o.pathsOf d.nodes).Nodup)
    (hfree : ∀ path ∈ o.pathsOf d.nodes, path ∉ r.paths) :
    let on := (d.convert (o.withExtract true)).run r
    let off := (d.convert (o.withExtract false)).run r
    ∀ n, on.2.size ≤ n →
      on.1.map (Option.map (on.2.expand n)) = off.1.map (Option.map fun v => some v.unnamed) := by
  intro on off n hn
  have h : (transparency o).Meets [] (transparency o).Result r r on off :=
    Simulation.convertWith (transparent_node ho) d [] r r
      ⟨by simpa using hterms, by simpa using hnodup, by simpa using hfree⟩
  rcases hon : on with ⟨e | v, r₁⟩ <;> rcases hoff : off with ⟨e' | w, s₁⟩ <;>
    rw [hon, hoff] at h <;> cases h
  · rfl
  · rename_i hresult
    rw [hon] at hn
    cases hresult with
    | none => rfl
    | some hv => exact congrArg (fun u => Except.ok (some u)) (hv.expand r₁ le_rfl n hn)

/-- A named object with an array of named items, whose metadata holds more than the name. -/
theorem convert_transparent_nested :
    let o : Options := {}
    let item := (ofType "string").withMeta [("extract", .string "Item"), ("color", .string "red")]
    let array := (ofType "array").withItem item
    let d := ((ofType "object").withMeta [("extract", .string "Node")]).withChild "a" array
    let on := (d.convert (o.withExtract true)).run {}
    let off := (d.convert (o.withExtract false)).run {}
    on.1 = .ok (some (.reference "/Node")) ∧ on.2.paths = ["/Item", "/Node"] ∧
      ∃ w, off.1 = .ok (some w) ∧ on.2.expand 2 (.reference "/Node") = some w.unnamed := by
  intro o item array d on off
  have hon : on.1 = .ok (some (.reference "/Node")) := rfl
  have hpaths : on.2.paths = ["/Item", "/Node"] := rfl
  obtain ⟨w, hoff⟩ : ∃ w, off.1 = .ok (some w) := ⟨_, rfl⟩
  have hterms : ∀ e ∈ d.nodes, e.KnowsTerm := by
    intro e he v hv
    have he : e ∈ [item, array, d] := he
    simp only [List.mem_cons, List.not_mem_nil, or_false] at he
    rcases he with rfl | rfl | rfl <;> cases hv
  have hnodup : (o.pathsOf d.nodes).Nodup := (by decide : ["/Item", "/Node"].Nodup)
  have h := convert_transparent (o := o) (d := d) (r := {}) rfl hterms hnodup
    (fun _ _ => List.not_mem_nil) 2 (by decide)
  change on.1.map (Option.map (on.2.expand 2)) = off.1.map _ at h
  rw [hon, hoff] at h
  exact ⟨hon, hpaths, w, hoff, Option.some.inj (Except.ok.inj h)⟩

end Description
end Schemata
