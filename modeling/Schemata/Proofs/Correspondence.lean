import Mathlib.Data.List.Forall2
import Schemata.Proofs.Node
import Schemata.Proofs.Plain
/-!
# Correspondence — related schemas in the same keywords

Two conversions that go step by step through the same description write the same keywords in the same
order; only the schemas inside them may differ.  A `Correspondence` is a relation between schemas and
one between the values of a keyword that go together: plain keywords hold the same value, and related
schemas in the same place of a keyword are related values.  What the kinds make of related schemas is
then related again.
-/
namespace Schemata

open List (Forall₂)

namespace Members

/-- Members with the same names in the same order, and related values. -/
def Rel (R : String → Json → Json → Prop) : Members Json → Members Json → Prop :=
  Forall₂ fun m n => m.1 = n.1 ∧ R m.1 m.2 n.2

variable {R : String → Json → Json → Prop} {ms ns : Members Json}

theorem rel_cons {name : String} {v w : Json} (hv : R name v w) (h : Rel R ms ns) :
    Rel R ((name, v) :: ms) ((name, w) :: ns) :=
  .cons ⟨rfl, hv⟩ h

theorem Rel.names_eq (h : Rel R ms ns) : names ms = names ns := by
  induction h with
  | nil => rfl
  | cons hm _ ih => exact congrArg₂ List.cons hm.1 ih

theorem Rel.insert {name : String} {v w : Json} (hv : R name v w) (h : Rel R ms ns) :
    Rel R (insert ms name v) (insert ns name w) := by
  induction h with
  | nil => exact rel_cons hv .nil
  | @cons m m' ms ns hm h ih =>
    obtain ⟨n, a⟩ := m
    obtain ⟨_, b⟩ := m'
    obtain ⟨rfl, hab⟩ := hm
    rw [Members.insert, Members.insert]
    by_cases hn : n = name
    · subst hn
      rw [if_pos rfl, if_pos rfl]
      exact rel_cons hv h
    · rw [if_neg hn, if_neg hn]
      exact rel_cons hab ih

theorem Rel.insertAll {new new' : Members Json} (hnew : Rel R new new') :
    ∀ {ms ns : Members Json}, Rel R ms ns → Rel R (insertAll ms new) (insertAll ns new') := by
  induction hnew with
  | nil => exact id
  | @cons m n new new' hmn _ ih =>
    intro ms ns h
    obtain ⟨name, v⟩ := m
    obtain ⟨_, w⟩ := n
    obtain ⟨rfl, hv⟩ := hmn
    exact ih (Rel.insert hv h)

theorem Rel.ofList (h : Rel R ms ns) : Rel R (ofList ms) (ofList ns) := Rel.insertAll h .nil

end Members

/-- **A relation between the schemas of two conversions**, and between the values of their
keywords. -/
structure Correspondence where
  Schema : Json → Json → Prop
  Keyword : String → Json → Json → Prop
  plain : ∀ {name : String} {v : Json}, IsPlain name → Keyword name v v
  whole : ∀ {name : String} {v w : Json}, (Place.ofKeyword name).whole = true → Schema v w →
    Keyword name v w
  items : ∀ {name : String} {vs ws : List Json}, (Place.ofKeyword name).items = true →
    Forall₂ Schema vs ws → Keyword name (.array vs) (.array ws)
  members : ∀ {name : String} {ms ns : Members Json}, (Place.ofKeyword name).members = true →
    Members.Rel (fun _ => Schema) ms ns → Keyword name (.object ms) (.object ns)
  anyOf : ∀ {vs ws : List Json}, Forall₂ Schema vs ws →
    Schema (.object [("anyOf", .array vs)]) (.object [("anyOf", .array ws)])

namespace Correspondence

variable (C : Correspondence)

/-- Children under the same key, required alike, with related schemas. -/
structure Child (a b : ConvertedChild) : Prop where
  key : a.key = b.key
  isRequired : a.isRequired = b.isRequired
  schema : C.Schema a.schema b.schema

/-- Keywords in the same order, with related values. -/
def Keywords : Members Json → Members Json → Prop := Members.Rel C.Keyword

variable {C}

theorem keywords_of_allPlain : ∀ {ms : Members Json}, AllPlain ms → C.Keywords ms ms
  | [], _ => .nil
  | _ :: _, h =>
    .cons ⟨rfl, C.plain (h _ List.mem_cons_self)⟩
      (keywords_of_allPlain fun m hm => h m (List.mem_cons_of_mem _ hm))

/-! ## Arrays -/

theorem collapse {name : String} (hname : (Place.ofKeyword name).whole = true)
    {vs ws : List Json} (h : Forall₂ C.Schema vs ws) :
    Option.Rel (C.Keyword name) (Keywords.collapse vs) (Keywords.collapse ws) := by
  cases h with
  | nil => exact .none
  | cons hv h =>
    cases h with
    | nil => exact .some (C.whole hname hv)
    | cons hw h => exact .some (C.whole hname (C.anyOf (.cons hv (.cons hw h))))

/-! ## Objects -/

theorem properties {cs cs' : Option (List ConvertedChild)}
    (h : Option.Rel (Forall₂ C.Child) cs cs') :
    Option.Rel (C.Keyword "properties") (cs.map Keywords.properties)
      (cs'.map Keywords.properties) := by
  cases h with
  | none => exact .none
  | @some cs cs' h =>
    have hms : Members.Rel (fun _ => C.Schema) (cs.map fun c => (c.key, c.schema))
        (cs'.map fun c => (c.key, c.schema)) := by
      induction h with
      | nil => exact .nil
      | cons hc _ ih => exact .cons ⟨hc.key, hc.schema⟩ ih
    exact .some (C.members (by decide) hms.ofList)

theorem patternProperties {ms ns : Option (Members Json)}
    (h : Option.Rel (Members.Rel fun _ => C.Schema) ms ns) :
    Option.Rel (C.Keyword "patternProperties") (ms.map fun ms => .object (Members.ofList ms))
      (ns.map fun ns => .object (Members.ofList ns)) := by
  cases h with
  | none => exact .none
  | some h => exact .some (C.members (by decide) h.ofList)

theorem requiredKeys_eq {cs cs' : Option (List ConvertedChild)}
    (h : Option.Rel (Forall₂ C.Child) cs cs') :
    cs.map Keywords.requiredKeys = cs'.map Keywords.requiredKeys := by
  cases h with
  | none => rfl
  | some h =>
    refine congrArg some ?_
    induction h with
    | nil => rfl
    | @cons c c' cs cs' hc _ ih =>
      unfold Keywords.requiredKeys at ih ⊢
      rw [List.filter_cons, List.filter_cons, hc.isRequired]
      split
      · rw [List.map_cons, List.map_cons, ih, hc.key]
      · exact ih

/-! ## Fragments -/

variable (C)

/-- Fragments with related keywords, none of them twice, and the same bag at the same place. -/
structure Fragments (f g : Fragment) : Prop where
  keywords : C.Keywords f.keywords g.keywords
  nodup : (Members.names f.keywords).Nodup
  bag : f.bag = g.bag
  slot : f.slot = g.slot

variable {C}

theorem fragments_of_plain {f : Fragment} (h : f.Plain) : C.Fragments f f :=
  ⟨keywords_of_allPlain h.keywords, h.nodup, rfl, rfl⟩

theorem Fragments.insertAll {f g : Fragment} (h : C.Fragments f g) {new new' : Members Json}
    (hnew : C.Keywords new new') : C.Fragments (f.insertAll new) (g.insertAll new') where
  keywords := by
    rw [f.keywords_insertAll, g.keywords_insertAll]
    exact Members.Rel.insertAll hnew h.keywords
  nodup := by
    rw [f.keywords_insertAll]
    exact Members.nodup_insertAll new h.nodup
  bag := by rw [f.bag_insertAll, g.bag_insertAll, h.bag]
  slot := by rw [f.slot_insertAll, g.slot_insertAll, h.slot]

/-- The names to register under are taken out of bags that are the same. -/
theorem Fragments.takeExtract {f g : Fragment} (h : C.Fragments f g) :
    C.Fragments f.takeExtract.2 g.takeExtract.2 := by
  rw [f.takeExtract_eq, g.takeExtract_eq, h.bag]
  exact ⟨h.keywords, h.nodup, rfl, h.slot⟩

theorem Fragments.insert {f g : Fragment} (h : C.Fragments f g) {name : String} {v w : Json}
    (hv : C.Keyword name v w) : C.Fragments (f.insert name v) (g.insert name w) :=
  h.insertAll (Members.rel_cons hv .nil)

theorem Fragments.insertOption {f g : Fragment} (h : C.Fragments f g) {name : String}
    {v w : Option Json} (hv : Option.Rel (C.Keyword name) v w) :
    C.Fragments (f.insertOption name v) (g.insertOption name w) := by
  cases hv with
  | none => exact h
  | some hv => exact h.insert hv

/-- A plain keyword may hold any value, the same on both sides. -/
theorem Fragments.insertPlain {f g : Fragment} (h : C.Fragments f g) {name : String}
    (hname : IsPlain name) (v : Option Json) :
    C.Fragments (f.insertOption name v) (g.insertOption name v) := by
  cases v with
  | none => exact h
  | some v => exact h.insert (C.plain hname)

theorem Fragments.insertItems {f g : Fragment} (h : C.Fragments f g)
    {anywhere anywhere' byPlace byPlace' : List Json}
    (ha : Forall₂ C.Schema anywhere anywhere') (hb : Forall₂ C.Schema byPlace byPlace') :
    C.Fragments (Keywords.insertItems anywhere byPlace f)
      (Keywords.insertItems anywhere' byPlace' g) := by
  cases hb with
  | nil => exact h.insertOption (collapse (by decide) ha)
  | cons hv hb =>
    exact (h.insert (C.items (by decide) (.cons hv hb))).insertOption (collapse (by decide) ha)

end Correspondence
end Schemata
