import Schemata.Proofs.Expansion
import Schemata.Proofs.Naming
/-!
# Unnamed — schemas without the names of their nodes

When nothing is extracted, the name of a node is written: it stays in the metadata of its schema.
`Json.unnamed` takes such names out again, of the schema and of all schemas inside it, together with
metadata that is empty then.  On a written fragment this is what extraction does to the bag before it
writes it (`Fragment.unnamed`), at the place of the bag.
-/
namespace Schemata

namespace Json

/-- Metadata without a name to register under, unless there is nothing else in it. -/
def unnamedMeta? : Json → Option Json
  | .object ms =>
    match Members.get? ms Bag.extractKey with
    | some (.string name) =>
      if name.isEmpty then some (.object ms)
      else if (Bag.unnamedFragment ms).isEmpty then none
      else some (.object (Bag.unnamedFragment ms))
    | _ => some (.object ms)
  | v => some v

mutual

/-- Take out the names of schemas at a place of a value. -/
def unnamedAt : Place → Json → Json
  | p, .array vs => if p.items then .array (unnamedItems vs) else .array vs
  | p, .object ms =>
    if p.members then .object (unnamedMembers ms)
    else if p.whole then .object (unnamedKeywords ms)
    else .object ms
  | _, v => v

/-- Take out the names of schemas one by one. -/
def unnamedItems : List Json → List Json
  | [] => []
  | v :: vs => unnamedAt Place.schema v :: unnamedItems vs

/-- Take out the names of named schemas. -/
def unnamedMembers : List (String × Json) → Members Json
  | [] => []
  | (name, v) :: ms => (name, unnamedAt Place.schema v) :: unnamedMembers ms

/-- Take the name of a schema out of its metadata, and those of the schemas inside it. -/
def unnamedKeywords : List (String × Json) → Members Json
  | [] => []
  | (name, v) :: ms =>
    if name = Fragment.bagKey then
      (unnamedMeta? v).toList.map (fun w => (name, w)) ++ unnamedKeywords ms
    else (name, unnamedAt (Place.ofKeyword name) v) :: unnamedKeywords ms

end

/-- **A schema without names** of nodes, in it and in the schemas inside it. -/
def unnamed (v : Json) : Json := unnamedAt Place.schema v

theorem unnamedAt_nowhere (v : Json) : unnamedAt {} v = v := by cases v <;> rfl

theorem unnamedAt_whole {p : Place} (hmembers : p.members = false) (hwhole : p.whole = true)
    (ms : Members Json) : unnamedAt p (.object ms) = (object ms).unnamed := by
  rw [unnamedAt, hmembers, hwhole]
  rfl

theorem unnamedKeywords_append : ∀ ms ns : Members Json,
    unnamedKeywords (ms ++ ns) = unnamedKeywords ms ++ unnamedKeywords ns
  | [], _ => rfl
  | (name, v) :: ms, ns => by
    rw [List.cons_append, unnamedKeywords, unnamedKeywords, unnamedKeywords_append ms ns]
    split
    · rw [List.append_assoc]
    · rfl

end Json

/-! ## Bags -/

namespace Bag

/-- The bag as it is written once its node is registered: without the name, if it is one, and not at
all when nothing else is in it. -/
def registered? (b : Bag) : Option Bag :=
  if b.extractName?.isSome then (if b.unnamed.isEmpty then none else some b.unnamed) else some b

/-- **The names come out of written metadata as they come out of the bag.** -/
theorem Clean.unnamedMeta?_toJson {b : Bag} (h : b.Clean) :
    Json.unnamedMeta? b.toJson = b.registered?.map toJson := by
  unfold toJson Json.unnamedMeta? registered? extractName?
  dsimp only
  rw [h.get?_toMembers, h.unnamedFragment_toMembers, isEmpty_toMembers]
  rcases b.extract with _ | v
  · rfl
  · cases v with
    | string name =>
      cases hn : name.isEmpty <;> cases b.unnamed.isEmpty <;> simp [hn, Json.string?]
    | null | bool | number | array | object => rfl

end Bag

/-! ## Fragments -/

namespace Fragment

def bagMembers : Option Bag → Members Json
  | none => []
  | some b => [(bagKey, b.toJson)]

/-- The fragment as it is written once its node is registered. -/
def registered (f : Fragment) : Fragment := { f with bag := f.bag.bind Bag.registered? }

/-- What the fragment of a named node leaves for the registry. -/
theorem registered_of_name {f : Fragment} {name : String}
    (h : f.bag.bind Bag.extractName? = some name) : f.takeExtract.2 = f.registered := by
  obtain ⟨b, hb, hname⟩ := Option.bind_eq_some_iff.1 h
  have hextract := (Bag.extract_of_extractName? hname).1
  have htaken : b.takeExtract = (some name, b.unnamed) := by
    rw [Bag.takeExtract, hextract]
    rfl
  unfold takeExtract registered dropEmptyBag
  rw [hb]
  simp only [htaken, Option.bind_some, Bag.registered?, hname, Option.isSome_some, if_true]
  split <;> rfl

theorem registered_of_no_name {f : Fragment} (h : f.bag.bind Bag.extractName? = none) :
    f.registered = f := by
  obtain ⟨keywords, bag, slot⟩ := f
  cases bag with
  | none => rfl
  | some b =>
    have hname : b.extractName? = none := h
    simp only [registered, Option.bind_some, Bag.registered?, hname, Option.isSome_none,
      Bool.false_eq_true, if_false]

/-- Where the bag is written, when no keyword has its name. -/
theorem toMembers_eq {f : Fragment} (hnodup : (Members.names f.keywords).Nodup)
    (hkey : bagKey ∉ Members.names f.keywords) :
    f.toMembers = f.keywords.take f.slot ++ bagMembers f.bag ++ f.keywords.drop f.slot := by
  unfold toMembers
  cases f.bag with
  | none => rw [bagMembers, List.append_nil, List.take_append_drop]
  | some b =>
    rw [← List.take_append_drop f.slot f.keywords] at hnodup hkey
    simp only [Members.names, List.map_append, List.nodup_append, List.mem_append, not_or]
      at hnodup hkey
    have htake : Members.insert (f.keywords.take f.slot) bagKey b.toJson =
        f.keywords.take f.slot ++ bagMembers (some b) :=
      Members.insert_of_not_mem _ _ _ hkey.1
    dsimp only
    rw [htake, Members.insertAll_of_disjoint hnodup.2.1]
    intro name hname hmem
    rw [Members.names, List.map_append, List.mem_append] at hmem
    rcases hmem with hmem | hmem
    · exact hnodup.2.2 name hmem name hname rfl
    · rw [bagMembers, List.map_singleton, List.mem_singleton] at hmem
      rw [hmem] at hname
      exact hkey.2 hname

/-- What is written has no names once those of its keywords and of its bag are taken out. -/
theorem unnamedKeywords_toMembers {f : Fragment} (hnodup : (Members.names f.keywords).Nodup)
    (hkey : bagKey ∉ Members.names f.keywords) (hclean : ∀ b, f.bag = some b → b.Clean) :
    Json.unnamedKeywords f.toMembers =
      Json.unnamedKeywords (f.keywords.take f.slot) ++ bagMembers f.registered.bag ++
        Json.unnamedKeywords (f.keywords.drop f.slot) := by
  have hbag : Json.unnamedKeywords (bagMembers f.bag) = bagMembers f.registered.bag := by
    unfold registered
    cases hb : f.bag with
    | none => rfl
    | some b =>
      rw [bagMembers, Json.unnamedKeywords, if_pos rfl, (hclean b hb).unnamedMeta?_toJson]
      change _ = bagMembers b.registered?
      cases b.registered? <;> rfl
  rw [toMembers_eq hnodup hkey, Json.unnamedKeywords_append, Json.unnamedKeywords_append, hbag]

/-! ## What the bag of a node says to the conversion -/

/-- **A fragment whose bag says what the merged metadata says**: the same name, the same combinator,
the same entries. -/
structure SaysAs (merged : Option Bag) (f : Fragment) : Prop where
  extract : f.bag.bind Bag.extract = merged.bind Bag.extract
  term : f.bag.bind Bag.term = merged.bind Bag.term
  entries : (f.bag.map Bag.entries).getD [] = (merged.map Bag.entries).getD []

theorem SaysAs.modifyBag {merged : Option Bag} {f : Fragment} (h : SaysAs merged f)
    {change : Bag → Bag} (hc : Bag.Adds change) : SaysAs merged (f.modifyBag change) := by
  obtain ⟨keywords, bag, slot⟩ := f
  cases bag with
  | none => exact ⟨(hc.extract {}).trans h.extract, (hc.term {}).trans h.term,
      (hc.entries {}).trans h.entries⟩
  | some b => exact ⟨(hc.extract b).trans h.extract, (hc.term b).trans h.term,
      (hc.entries b).trans h.entries⟩

theorem SaysAs.name {merged : Option Bag} {f : Fragment} (h : SaysAs merged f) :
    f.bag.bind Bag.extractName? = merged.bind Bag.extractName? := by
  have hname : ∀ b? : Option Bag, b?.bind Bag.extractName? =
      ((b?.bind Bag.extract).bind Json.string?).filter fun name => !name.isEmpty := by
    intro b?
    cases b? <;> rfl
  rw [hname, hname, h.extract]

theorem SaysAs.clean {merged : Option Bag} {f : Fragment} (h : SaysAs merged f)
    (hmerged : ∀ b, merged = some b → b.Clean) : ∀ b, f.bag = some b → b.Clean := by
  intro b hb
  have hentries := h.entries
  rw [hb, Option.map_some, Option.getD_some] at hentries
  unfold Bag.Clean
  rw [hentries]
  cases merged with
  | none => exact List.not_mem_nil
  | some b' => exact hmerged b' rfl

theorem SaysAs.takeTerm_fst {merged : Option Bag} {f : Fragment} (h : SaysAs merged f) :
    f.takeTerm.1 = (merged.bind Bag.term).bind Json.string? := by
  rw [← h.term]
  unfold Fragment.takeTerm
  cases f.bag with
  | none => rfl
  | some b => exact b.takeTerm_fst

theorem name_takeTerm (f : Fragment) :
    f.takeTerm.2.bag.bind Bag.extractName? = f.bag.bind Bag.extractName? := by
  unfold Fragment.takeTerm dropEmptyBag
  cases hb : f.bag with
  | none => rw [hb]
  | some b =>
    have hextract := b.extract_takeTerm
    have hname : b.takeTerm.2.extractName? = b.extractName? := by
      rw [Bag.extractName?, hextract, ← Bag.extractName?]
    dsimp only
    split
    · rename_i hempty
      rw [Option.bind_some, ← hname, Bag.eq_empty_of_isEmpty hempty]
      rfl
    · exact hname

theorem clean_takeTerm {f : Fragment} (h : ∀ b, f.bag = some b → b.Clean) :
    ∀ b, f.takeTerm.2.bag = some b → b.Clean := by
  unfold Fragment.takeTerm dropEmptyBag
  cases hb : f.bag with
  | none => exact fun b hb' => absurd (hb.symm.trans hb') (by simp)
  | some b =>
    have hclean := h b hb
    intro b' hb'
    dsimp only at hb'
    split at hb'
    · cases hb'
    · cases hb'
      unfold Bag.Clean at hclean ⊢
      rwa [b.entries_takeTerm]

end Fragment

namespace Traits

open Fragment (SaysAs)

theorem saysAs_commonFragment (t : Traits) :
    SaysAs t.mergedMeta (t.commonFragment t.leadingFragment) := by
  refine commonFragment_induction (fun f key value _ h => ⟨h.extract, h.term, h.entries⟩)
    (fun f change hc h => h.modifyBag hc) t ?_
  constructor <;> rw [bag_leadingFragment]

theorem clean_mergedMeta {t : Traits} {b : Bag} (h : t.mergedMeta = some b) : b.Clean := by
  obtain ⟨fragments, -, rfl⟩ := Option.map_eq_some_iff.1 h
  exact Bag.clean_foldl_merge fragments List.not_mem_nil

end Traits
end Schemata
