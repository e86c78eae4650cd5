import Schemata.Description.Build
import Schemata.Proofs.Paths
import Schemata.Proofs.Session
import Schemata.Proofs.Transparency
/-!
# Renaming — another prefix of paths only renames

The prefix that is put before names that are not absolute decides under which paths schemas are
registered, and nothing else.  Two conversions that differ in it fail alike, drop the same nodes and
register the same names in the same order; what they give and store is the same once the references
are rewritten (`Description.convert_renamed`).  So it is for all that a converter is called with, one
call after the other (`Converter.call_renamed`).

The proof runs both conversions together.  Their registries have the same names under the two
prefixes, so a path is taken in one when it is taken in the other.
-/
namespace Schemata

open List (Forall₂)

/-! ## Schemas with renamed references -/

namespace Json

/-- A reference with another prefix in place of the one that it has; any other text as it is. -/
def renamedText (p q text : String) : String :=
  match text.toList.dropPrefix? ("#" ++ p).toList with
  | some name => "#" ++ (q ++ String.ofList name)
  | none => text

/-- The value of a reference, renamed if it is a text. -/
def renamedReference (p q : String) : Json → Json
  | .string text => .string (renamedText p q text)
  | v => v

mutual

/-- Rename the references at a place of a value. -/
def renamedAt (p q : String) : Place → Json → Json
  | place, .array vs => if place.items then .array (renamedItems p q vs) else .array vs
  | place, .object ms =>
    if place.members then .object (renamedMembers p q ms)
    else if place.whole then .object (renamedKeywords p q ms)
    else .object ms
  | _, v => v

/-- Rename the references in schemas one by one. -/
def renamedItems (p q : String) : List Json → List Json
  | [] => []
  | v :: vs => renamedAt p q Place.schema v :: renamedItems p q vs

/-- Rename the references in named schemas. -/
def renamedMembers (p q : String) : List (String × Json) → Members Json
  | [] => []
  | (name, v) :: ms => (name, renamedAt p q Place.schema v) :: renamedMembers p q ms

/-- Rename the reference of a schema and those in the schemas inside it. -/
def renamedKeywords (p q : String) : List (String × Json) → Members Json
  | [] => []
  | (name, v) :: ms =>
    (name, if name = refKey then renamedReference p q v
      else renamedAt p q (Place.ofKeyword name) v) :: renamedKeywords p q ms

end

/-- **A schema with renamed references**: each that begins with the first prefix has the second one
instead, wherever a schema stands. -/
def renamed (p q : String) (v : Json) : Json := renamedAt p q Place.schema v

variable {p q : String}

theorem renamedAt_nowhere (v : Json) : renamedAt p q {} v = v := by cases v <;> rfl

theorem renamedAt_whole {place : Place} (hmembers : place.members = false)
    (hwhole : place.whole = true) (ms : Members Json) :
    renamedAt p q place (.object ms) = (object ms).renamed p q := by
  rw [renamedAt, hmembers, hwhole]
  rfl

theorem renamedKeywords_append : ∀ ms ns : Members Json,
    renamedKeywords p q (ms ++ ns) = renamedKeywords p q ms ++ renamedKeywords p q ns
  | [], _ => rfl
  | (name, v) :: ms, ns => by
    rw [List.cons_append, renamedKeywords, renamedKeywords, renamedKeywords_append ms ns,
      List.cons_append]

theorem renamedText_append (p q name : String) :
    renamedText p q ("#" ++ (p ++ name)) = "#" ++ (q ++ name) := by
  have h : ("#" ++ (p ++ name)).toList.dropPrefix? ("#" ++ p).toList = some name.toList := by
    rw [List.dropPrefix?_eq_some_iff]
    refine ⟨("#" ++ p).toList, ?_, by simp⟩
    rw [← String.append_assoc, String.toList_append]
  rw [renamedText, h]
  simp only [String.ofList_toList]

theorem renamed_reference (p q name : String) :
    (reference (p ++ name)).renamed p q = reference (q ++ name) :=
  congrArg (fun text => Json.object [(refKey, .string text)]) (renamedText_append p q name)

end Json

/-! ## What corresponds -/

/-- The second value is the first one under a keyword, with renamed references. -/
structure Json.RenamedUnder (p q name : String) (v w : Json) : Prop where
  notReference : name ≠ Json.refKey
  notMeta : name ≠ Fragment.bagKey
  renamed : Json.renamedAt p q (Place.ofKeyword name) v = w

namespace Json

variable {p q : String}

theorem renamedItems_of_forall₂ {vs ws : List Json}
    (h : Forall₂ (fun v w => v.renamed p q = w) vs ws) : renamedItems p q vs = ws := by
  induction h with
  | nil => rfl
  | cons hv _ ih => exact congrArg₂ List.cons hv ih

theorem renamedMembers_of_rel {ms ns : Members Json}
    (h : Members.Rel (fun _ v w => v.renamed p q = w) ms ns) : renamedMembers p q ms = ns := by
  induction h with
  | nil => rfl
  | cons hm _ ih => exact congrArg₂ List.cons (Prod.ext hm.1 hm.2) ih

theorem renamedKeywords_of_rel {ms ns : Members Json} (h : Members.Rel (RenamedUnder p q) ms ns) :
    renamedKeywords p q ms = ns := by
  induction h with
  | nil => rfl
  | @cons m m' ms ns hm _ ih =>
    obtain ⟨name, v⟩ := m
    obtain ⟨_, w⟩ := m'
    obtain ⟨rfl, hv⟩ := hm
    rw [renamedKeywords, if_neg hv.notReference, hv.renamed, ih]

theorem not_mem_names_of_renamed {ms ns : Members Json}
    (h : Members.Rel (RenamedUnder p q) ms ns) : Fragment.bagKey ∉ Members.names ms := by
  induction h with
  | nil => exact List.not_mem_nil
  | cons hm _ ih => exact List.not_mem_cons_of_ne_of_not_mem hm.2.notMeta.symm ih

theorem renamedUnder_array {name : String} (hitems : (Place.ofKeyword name).items = true)
    {vs ws : List Json} (h : Forall₂ (fun v w => v.renamed p q = w) vs ws) :
    RenamedUnder p q name (.array vs) (.array ws) where
  notReference := by
    rintro rfl
    exact absurd hitems (by decide)
  notMeta := by
    rintro rfl
    exact absurd hitems (by decide)
  renamed := by rw [renamedAt, if_pos hitems, renamedItems_of_forall₂ h]

end Json

/-- Schemas that are objects, the second with renamed references. -/
structure Json.RenamedTo (p q : String) (v w : Json) : Prop where
  isObject : ∃ ms, v = .object ms
  renamed : v.renamed p q = w

/-- Schemas that are the same with renamed references. -/
def Correspondence.renames (p q : String) : Correspondence where
  Schema := Json.RenamedTo p q
  Keyword := Json.RenamedUnder p q
  plain := fun {_ v} ⟨hplace, href, hmeta⟩ => ⟨href, hmeta, hplace ▸ Json.renamedAt_nowhere v⟩
  whole := by
    rintro name _ w hwhole ⟨⟨ms, rfl⟩, h⟩
    refine ⟨?_, ?_, (Json.renamedAt_whole (Place.members_eq_false_of_whole hwhole) hwhole ms).trans h⟩
    · rintro rfl
      exact absurd hwhole (by decide)
    · rintro rfl
      exact absurd hwhole (by decide)
  items := fun hitems h => Json.renamedUnder_array hitems (h.imp fun _ _ hv => hv.renamed)
  members := by
    intro name ms ns hmembers h
    refine ⟨?_, ?_, ?_⟩
    · rintro rfl
      exact absurd hmembers (by decide)
    · rintro rfl
      exact absurd hmembers (by decide)
    · rw [Json.renamedAt, if_pos hmembers,
        Json.renamedMembers_of_rel (h.imp fun _ _ hm => ⟨hm.1, hm.2.renamed⟩)]
  anyOf := by
    intro vs ws h
    have harray : Members.Rel (Json.RenamedUnder p q) [("anyOf", .array vs)] [("anyOf", .array ws)] :=
      Members.rel_cons (Json.renamedUnder_array (by decide) (h.imp fun _ _ hv => hv.renamed)) .nil
    exact ⟨⟨_, rfl⟩, congrArg Json.object (Json.renamedKeywords_of_rel harray)⟩

namespace Fragment

variable {p q : String} {f g : Fragment}

/-- **Fragments that correspond are written alike** but for references. -/
theorem renamed_toJson (h : (Correspondence.renames p q).Fragments f g) :
    Json.RenamedTo p q f.toJson g.toJson := by
  obtain ⟨hkeywords, hnodup, hbag, hslot⟩ := h
  have hnames := Members.Rel.names_eq hkeywords
  have hmeta := Json.not_mem_names_of_renamed hkeywords
  have hbagMembers : Json.renamedKeywords p q (bagMembers g.bag) = bagMembers g.bag := by
    cases g.bag <;> rfl
  refine ⟨⟨_, rfl⟩, congrArg Json.object ?_⟩
  change Json.renamedKeywords p q f.toMembers = g.toMembers
  rw [toMembers_eq hnodup hmeta, toMembers_eq (hnames ▸ hnodup) (hnames ▸ hmeta), hbag, hslot,
    Json.renamedKeywords_append, Json.renamedKeywords_append, hbagMembers,
    Json.renamedKeywords_of_rel (List.forall₂_take g.slot hkeywords),
    Json.renamedKeywords_of_rel (List.forall₂_drop g.slot hkeywords)]

end Fragment

/-! ## Registries -/

/-- **The same names in the same order, under two prefixes**, with schemas that are the same once
references are renamed. -/
def Registry.Renamed (p q : String) (r s : Registry) : Prop :=
  Forall₂ (fun e e' => ∃ name, e.1 = p ++ name ∧ e'.1 = q ++ name ∧ e.2.renamed p q = e'.2)
    r.entries s.entries

namespace Registry

variable {p q : String} {r s : Registry}

theorem Renamed.empty : Renamed p q {} {} := .nil

/-- A name is taken under one prefix when it is under the other. -/
theorem Renamed.contains_eq (h : r.Renamed p q s) (name : String) :
    r.contains (p ++ name) = s.contains (q ++ name) := by
  rw [Bool.eq_iff_iff, contains_iff, contains_iff]
  unfold Renamed at h
  unfold paths
  generalize r.entries = ms at h
  generalize s.entries = ns at h
  induction h with
  | nil => exact ⟨fun h => absurd h List.not_mem_nil, fun h => absurd h List.not_mem_nil⟩
  | cons he _ ih =>
    obtain ⟨other, hp, hq, -⟩ := he
    simp only [Members.names, List.map_cons, List.mem_cons] at ih ⊢
    rw [ih, hp, hq, String.append_right_inj, String.append_right_inj]

/-- Registering a schema on both sides, under one name, keeps the registries in step. -/
theorem Renamed.register (h : r.Renamed p q s) (name : String) {v w : Json}
    (hv : v.renamed p q = w) : (r.register (p ++ name) v).Renamed p q (s.register (q ++ name) w) := by
  have heq := h.contains_eq name
  by_cases hp : r.contains (p ++ name) = true
  · rw [register_of_contains hp, register_of_contains (heq ▸ hp)]
    exact h
  · unfold Renamed
    rw [entries_register_of_not_contains hp, entries_register_of_not_contains (heq ▸ hp)]
    exact List.rel_append h (.cons ⟨name, rfl, rfl, hv⟩ .nil)

end Registry

/-! ## Two conversions with different prefixes -/

/-- The options with another prefix of paths. -/
def Options.withPrefix (o : Options) (p : String) : Options := { o with extractPath := p }

/-- Where paths begin makes no difference to a kind. -/
theorem Kind.convert_withPrefix (kind : Kind) (o : Options) (p : String) (t : Traits)
    (below : Below) (f : Fragment) :
    kind.convert (o.withPrefix p).toSettings t below f = kind.convert o.toSettings t below f := by
  cases kind <;> rfl

/-- A description with a known combinator whose path depends on the prefix: its name, if it has one,
is not absolute. -/
structure Description.Relocatable (d : Description) : Prop where
  term : d.KnowsTerm
  relative : ∀ name, d.name? = some name → Settings.isAbsolute name = false

theorem Options.path?_withPrefix {d : Description} (hd : d.Relocatable) (o : Options) (p : String) :
    (o.withPrefix p).path? d = if o.extract then d.name?.map (p ++ ·) else none := by
  have hpath : d.name?.map (o.withPrefix p).extractionPath = d.name?.map (p ++ ·) := by
    cases hname : d.name? with
    | none => rfl
    | some name =>
      have hrelative := hd.relative name hname
      simp only [Option.map_some, Settings.extractionPath, hrelative, Bool.false_eq_true, if_false]
      rfl
  rw [path?, hpath]
  rfl

/-- One run beside one with another prefix. -/
def Simulation.relocation (p q : String) : Simulation where
  Agree later r s := (∀ d ∈ later, d.Relocatable) ∧ r.Renamed p q s
  values _ _ := Correspondence.renames p q
  agree_sublist := fun hs h => ⟨fun d hd => h.1 d (hs.subset hd), h.2⟩
  schema_mono := fun _ _ h => h

namespace Description

open Simulation (relocation)

variable {o : Options} {p q : String} {other other' : Description → Conversion (Option Json)}
  {d : Description}

theorem Relocatable.termFits (h : d.Relocatable) :
    (relocation p q).TermFits (d.commonFragment d.leadingFragment) := by
  intro r s vs ws hschemas
  refine Json.renamedUnder_array h.term.items (hschemas.imp fun _ _ hv => hv.renamed)

/-- A node that is registered under both prefixes, or under neither because its name is taken. -/
theorem renamed_extracted {later : List Description} {r s : Registry} {f : Fragment} {name : String}
    (hagree : (relocation p q).Agree later r s) {c c' : Conversion Fragment}
    (h : (relocation p q).Meets later ((relocation p q).Kinds f) r s (c.run r) (c'.run s)) :
    (relocation p q).Meets later (relocation p q).Result r s
      ((Conversion.extracted (p ++ name) (some <$> c)).run r)
      ((Conversion.extracted (q ++ name) (some <$> c')).run s) := by
  have href : ∀ r' s', (relocation p q).Result r' s' (some (.reference (p ++ name)))
      (some (.reference (q ++ name))) :=
    fun _ _ => .some ⟨⟨_, rfl⟩, Json.renamed_reference p q name⟩
  have heq := hagree.2.contains_eq name
  by_cases hp : r.contains (p ++ name) = true
  · rw [Conversion.run_extracted_of_contains hp,
      Conversion.run_extracted_of_contains (heq ▸ hp)]
    exact .ok le_rfl le_rfl hagree (href r s)
  · rw [Conversion.run_extracted_of_not_contains hp, Conversion.run_map,
      Conversion.run_extracted_of_not_contains (heq ▸ hp), Conversion.run_map]
    rcases hc : c.run r with ⟨e | g, r₁⟩ <;> rcases hc' : c'.run s with ⟨e' | g', s₁⟩ <;>
      rw [hc, hc'] at h <;> cases h
    · rename_i hr hs hagree₁
      exact .error hr hs hagree₁
    · rename_i hr hs hagree₁ hg
      have hwritten := (Fragment.renamed_toJson hg.fragments.takeExtract).renamed
      exact .ok (le_trans hr (r₁.le_register _ _)) (le_trans hs (s₁.le_register _ _))
        ⟨hagree₁.1, hagree₁.2.register name hwritten⟩ (href _ _)

theorem renamed_node (ho : o.handlers = []) (d : Description) (b b' : Below)
    (hb : b.Relates (relocation p q) d b') :
    (relocation p q).Relates d.nodes (relocation p q).Result
      (convertNode (o.withPrefix p) other d b) (convertNode (o.withPrefix q) other' d b') := by
  have hresolve : ∀ x, (o.withPrefix x).resolve d.typeName =
      (Kind.ofName? d.typeName).map .inr :=
    fun x => Options.resolve_of_no_handlers ho d.typeName
  cases hk : Kind.ofName? d.typeName with
  | none =>
    rw [hk] at hresolve
    exact Simulation.unknown (hresolve p) (hresolve q) rfl b b'
  | some kind =>
    rw [hk] at hresolve
    intro later r s hagree
    have hd : d.Relocatable := hagree.1 d (List.mem_append_left _ d.mem_nodes_self)
    have hlater : (d.belowNodes ++ later).Sublist (d.nodes ++ later) := by
      rw [nodes_eq]
      exact (List.sublist_append_left _ _).append_right later
    have hafter := (relocation p q).agree_sublist (List.sublist_append_right d.nodes later) hagree
    have hkind := Simulation.kind o.toSettings kind
      (d.plain_commonFragment d.plain_leadingFragment) (fun _ => hd.termFits) hb later r s
      ((relocation p q).agree_sublist hlater hagree)
    rw [convertNode_of_kind (hresolve p), convertNode_of_kind (hresolve q),
      Kind.convert_withPrefix, Kind.convert_withPrefix, Options.extraction?_eq_path?,
      Options.extraction?_eq_path?, Options.path?_withPrefix hd, Options.path?_withPrefix hd]
    have hinline := hkind.inline fun _ _ _ _ hg => Fragment.renamed_toJson hg.fragments
    by_cases hx : o.extract = true
    · rw [if_pos hx, if_pos hx]
      cases d.name? with
      | none => exact hinline
      | some name => exact renamed_extracted hafter hkind
    · rw [if_neg hx, if_neg hx]
      exact hinline

/-- **Another prefix only renames.**  From registries that differ in the prefix alone, a description
fails under both with the same error, is dropped under both, or becomes the same schema with renamed
references; and the registries differ in the prefix alone again. -/
theorem convert_renamed (ho : o.handlers = []) {d : Description} (hd : ∀ e ∈ d.nodes, e.Relocatable)
    {r s : Registry} (h : r.Renamed p q s) :
    ((d.convert (o.withPrefix p)).run r).1.map (Option.map (Json.renamed p q)) =
        ((d.convert (o.withPrefix q)).run s).1 ∧
      ((d.convert (o.withPrefix p)).run r).2.Renamed p q
        ((d.convert (o.withPrefix q)).run s).2 := by
  have hmeets : (relocation p q).Meets [] (relocation p q).Result r s
      ((d.convert (o.withPrefix p)).run r) ((d.convert (o.withPrefix q)).run s) :=
    Simulation.convertWith (renamed_node ho) d [] r s ⟨by simpa using hd, h⟩
  rcases hp : (d.convert (o.withPrefix p)).run r with ⟨e | v, r₁⟩ <;>
    rcases hq : (d.convert (o.withPrefix q)).run s with ⟨e' | w, s₁⟩ <;>
    rw [hp, hq] at hmeets <;> cases hmeets
  · rename_i hagree
    exact ⟨rfl, hagree.2⟩
  · rename_i hagree hresult
    refine ⟨?_, hagree.2⟩
    cases hresult with
    | none => rfl
    | some hv => exact congrArg (fun u => Except.ok (some u)) hv.renamed

end Description

namespace Converter

/-- What a converter is called with is read as a description that may be moved, or not at all. -/
def Call.Relocatable (x : Call) : Prop :=
  ∀ d, x.read = .ok d → ∀ e ∈ d.nodes, e.Relocatable

/-- Two converters that differ in the prefix, and in what they stored because of it. -/
structure Renamed (o : Options) (p q : String) (c c' : Converter) : Prop where
  options : c.options = o.withPrefix p
  options' : c'.options = o.withPrefix q
  registry : c.registry.Renamed p q c'.registry

variable {o : Options} {p q : String} {c c' : Converter}

/-- One call: the results differ in references only, and the converters as before. -/
theorem Renamed.call (ho : o.handlers = []) (h : Renamed o p q c c') {x : Call}
    (hx : x.Relocatable) :
    (c.call x).1.map (Option.map (Json.renamed p q)) = (c'.call x).1 ∧
      Renamed o p q (c.call x).2 (c'.call x).2 := by
  cases hread : x.read with
  | error e =>
    rw [call_of_refused hread, call_of_refused hread]
    exact ⟨rfl, h⟩
  | ok d =>
    rw [call_of_read hread, call_of_read hread, convertDescription_eq, convertDescription_eq,
      h.options, h.options']
    obtain ⟨hresult, hregistry⟩ := Description.convert_renamed ho (hx d hread) h.registry
    exact ⟨hresult, rfl, rfl, hregistry⟩

theorem Renamed.callAll (ho : o.handlers = []) : ∀ {calls : List Call} {c c' : Converter},
    (∀ x ∈ calls, x.Relocatable) → Renamed o p q c c' →
      Renamed o p q (c.callAll calls) (c'.callAll calls)
  | [], _, _, _, h => h
  | x :: calls, _, _, hcalls, h => by
    rw [List.forall_mem_cons] at hcalls
    rw [callAll_cons, callAll_cons]
    exact callAll ho hcalls.2 (h.call ho hcalls.1).2

/-- **Choosing another prefix only renames.**  Two converters whose options differ in the prefix are
called with the same things, failing ones among them: every call fails on both with the same error,
drops its node on both, or gives the same schema with renamed references; and after it both have
stored the same names in the same order, with schemas that are the same but for references. -/
theorem call_renamed (ho : o.handlers = []) {calls : List Call}
    (hcalls : ∀ x ∈ calls, x.Relocatable) {x : Call} (hx : x.Relocatable) :
    let here := (callAll ⟨o.withPrefix p, {}⟩ calls).call x
    let there := (callAll ⟨o.withPrefix q, {}⟩ calls).call x
    here.1.map (Option.map (Json.renamed p q)) = there.1 ∧
      here.2.registry.Renamed p q there.2.registry := by
  have h : Renamed o p q (callAll ⟨o.withPrefix p, {}⟩ calls) (callAll ⟨o.withPrefix q, {}⟩ calls) :=
    Renamed.callAll ho hcalls ⟨rfl, rfl, .empty⟩
  obtain ⟨hresult, hafter⟩ := h.call ho hx
  exact ⟨hresult, hafter.registry⟩

/-- A named object with a named child, under a prefix that ends in a name and one that does not,
after a call that failed below it. -/
theorem call_renamed_nested :
    let child := (Description.ofType "string").withMeta [("extract", .string "Child")]
    let node := (Description.ofType "object").withMeta [("extract", .string "Node")]
    let refused := (Description.ofType "array").withItem child |>.withItem (.ofType "unknown")
    let o : Options := { extract := true }
    let session p := (callAll ⟨o.withPrefix p, {}⟩ [.node refused]).call (.node (node.withChild "a" child))
    (session "/x").2.registry.paths = ["/xChild", "/xNode"] ∧
      (session "/y/").2.registry.paths = ["/y/Child", "/y/Node"] ∧
      (session "/x").1.map (Option.map (Json.renamed "/x" "/y/")) = (session "/y/").1 ∧
      (session "/x").2.registry.Renamed "/x" "/y/" (session "/y/").2.registry := by
  intro child node refused o session
  have hmoved : ∀ e ∈ [child, .ofType "unknown", refused, node.withChild "a" child],
      e.Relocatable := by
    intro e he
    simp only [List.mem_cons, List.not_mem_nil, or_false] at he
    rcases he with rfl | rfl | rfl | rfl <;> constructor
    all_goals
      intro _ h
      cases h
    all_goals decide
  have hcalls : ∀ x ∈ [Call.node refused], x.Relocatable := by
    intro x hx d hd e he
    rw [List.mem_singleton.1 hx] at hd
    cases hd
    have he : e ∈ [child, .ofType "unknown", refused] := he
    exact hmoved e (List.mem_append_left [node.withChild "a" child] he)
  have hx : (Call.node (node.withChild "a" child)).Relocatable := by
    intro d hd e he
    cases hd
    have he : e ∈ [child, node.withChild "a" child] := he
    rcases List.mem_cons.1 he with rfl | he
    · exact hmoved _ List.mem_cons_self
    · exact hmoved e (List.mem_append_right [child, .ofType "unknown", refused] he)
  have h := call_renamed (o := o) (p := "/x") (q := "/y/") rfl hcalls hx
  exact ⟨rfl, rfl, h⟩

end Converter
end Schemata
