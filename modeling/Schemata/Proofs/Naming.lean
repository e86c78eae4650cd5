import Schemata.Proofs.Plain
/-!
# Naming — the name under which a node is registered

The name of a node comes from its metadata fragments, and it travels in the bag until the node is
registered.  `Traits.name?` reads it off the fragments, and `Traits.unnamed` takes it out of each of
them.  A fragment with the name and one without differ in the bag only (`Fragment.Named`); where the
bag holds nothing else, the second has none.  Every change that a conversion makes keeps them so, and
with the name taken out they are written alike (`Fragment.Named.toJson_takeExtract`).
-/
namespace Schemata

/-! ## Traits -/

namespace Traits

/-- The merged metadata of the node itself. -/
def mergedMeta (t : Traits) : Option Bag :=
  t.metas.map fun fragments => fragments.foldl Bag.merge {}

/-- The name under which a node is registered. -/
def name? (t : Traits) : Option String := t.mergedMeta.bind Bag.extractName?

/-- The traits without a name to register under: it is taken out of every metadata fragment, and
there is no metadata when nothing else is left in them. -/
def unnamed (t : Traits) : Traits :=
  let rest := t.metas.map fun fragments => fragments.map Bag.unnamedFragment
  { t with metas := rest.filter fun fragments => fragments.any fun fragment => !fragment.isEmpty }

/-- The keywords that are set before the metadata: null and allowed values. -/
def valueFragment (t : Traits) : Fragment :=
  let f : Fragment := {}
  let f := if t.valids.any Json.isNull then f.insert "nullable" (.bool true) else f
  if t.flags.allowOnly && !t.valids.isEmpty then
    f.insert "enum" (.array (t.valids.filter fun value => !value.isNull))
  else f

theorem bag_valueFragment (t : Traits) : t.valueFragment.bag = none := by
  unfold valueFragment
  dsimp only
  split_ifs <;> rfl

theorem leadingFragment_eq (t : Traits) :
    t.leadingFragment =
      { t.valueFragment with
        bag := t.mergedMeta
        slot := if t.metas.isSome then t.valueFragment.keywords.length
          else t.valueFragment.slot } := by
  have hbag := t.bag_valueFragment
  unfold leadingFragment mergedMeta
  cases t.metas with
  | none =>
    change t.valueFragment = { t.valueFragment with bag := none, slot := t.valueFragment.slot }
    rw [← hbag]
  | some fragments =>
    change t.valueFragment.modifyBag (fun b => fragments.foldl Bag.merge b) = _
    unfold Fragment.modifyBag Fragment.openBag
    rw [hbag]
    rfl

theorem bag_leadingFragment (t : Traits) : t.leadingFragment.bag = t.mergedMeta := by
  rw [leadingFragment_eq]

theorem extraction?_leadingFragment (s : Settings) (t : Traits) :
    s.extraction? t.leadingFragment = if s.extract then t.name?.map s.extractionPath else none := by
  rw [Settings.extraction?, bag_leadingFragment]
  rfl

end Traits

/-! ## Fragments with and without the name -/

namespace Fragment

/-- **A fragment with a name and the same one without.** -/
inductive Named (name : String) : Fragment → Fragment → Prop where
  /-- The name is all that is in the bag, and the other fragment has none. -/
  | alone {keywords : Members Json} {slot slot' : Nat} :
    Named name ⟨keywords, some (Bag.named {} name), slot⟩ ⟨keywords, none, slot'⟩
  /-- There is something else in the bag. -/
  | beside {keywords : Members Json} {b : Bag} {slot : Nat} :
    b.extract = none → b.isEmpty = false →
      Named name ⟨keywords, some (b.named name), slot⟩ ⟨keywords, some b, slot⟩

namespace Named

variable {name : String} {f g : Fragment}

theorem keywords_eq (h : Named name f g) : f.keywords = g.keywords := by cases h <;> rfl

theorem insert (h : Named name f g) (key : String) (value : Json) :
    Named name (f.insert key value) (g.insert key value) := by
  cases h with
  | alone => exact .alone
  | beside hextract hfilled => exact .beside hextract hfilled

theorem insertAll : ∀ (new : Members Json) {f g : Fragment}, Named name f g →
    Named name (f.insertAll new) (g.insertAll new)
  | [], _, _, h => h
  | (key, value) :: new, _, _, h => insertAll new (h.insert key value)

theorem applyInsert {α : Type} (h : Named name f g) (key : String) (value : α → Json)
    (x : Option α) : Named name (f.applyOption (fun f a => f.insert key (value a)) x)
      (g.applyOption (fun f a => f.insert key (value a)) x) := by
  cases x with
  | none => exact h
  | some a => exact h.insert key (value a)

theorem takeTerm (h : Named name f g) :
    f.takeTerm.1 = g.takeTerm.1 ∧ Named name f.takeTerm.2 g.takeTerm.2 := by
  cases h with
  | alone => exact ⟨rfl, .alone⟩
  | @beside keywords b slot hextract _ =>
    unfold Fragment.takeTerm dropEmptyBag
    simp only [Bag.takeTerm_named, Bag.isEmpty_named, Bool.false_eq_true, if_false, true_and]
    cases he : b.takeTerm.2.isEmpty with
    | true =>
      rw [Bag.eq_empty_of_isEmpty he]
      exact .alone
    | false => exact .beside (b.extract_takeTerm.trans hextract) he

/-- **With the name taken out both are written alike.** -/
theorem toJson_takeExtract (h : Named name f g) : f.takeExtract.2.toJson = g.toJson := by
  cases h with
  | alone => rfl
  | beside hextract hfilled =>
    simp only [Fragment.takeExtract, Bag.takeExtract_named, Bag.unnamed_of_extract hextract,
      dropEmptyBag, hfilled, Bool.false_eq_true, if_false]

theorem extraction?_eq_none (h : Named name f g) (s : Settings) : s.extraction? g = none := by
  unfold Settings.extraction?
  split
  · cases h with
    | alone => rfl
    | beside hextract _ => simp [Bag.extractName?, hextract]
  · rfl

end Named

/-- A fragment with a name and the same one without, before other keywords come: a bag that is not
there yet would be created where the other is. -/
structure NamedHere (name : String) (f g : Fragment) : Prop where
  named : Named name f g
  slot : f.slot = f.keywords.length

theorem NamedHere.modifyBag {name : String} {f g : Fragment} (h : NamedHere name f g)
    {change : Bag → Bag} (hc : Bag.Adds change) :
    NamedHere name (f.modifyBag change) (g.modifyBag change) := by
  obtain ⟨h, hslot⟩ := h
  cases h with
  | @alone keywords slot slot' =>
    obtain rfl : slot = keywords.length := hslot
    refine ⟨?_, rfl⟩
    change Named name ⟨keywords, some (change (Bag.named {} name)), keywords.length⟩
      ⟨keywords, some (change {}), keywords.length⟩
    rw [hc.named]
    exact .beside (hc.extract {}) (hc.filled {})
  | @beside keywords b slot hextract _ =>
    refine ⟨?_, hslot⟩
    change Named name ⟨keywords, some (change (b.named name)), slot⟩
      ⟨keywords, some (change b), slot⟩
    rw [hc.named]
    exact .beside ((hc.extract b).trans hextract) (hc.filled b)

theorem NamedHere.applyBag {α : Type} {name : String} {f g : Fragment} (h : NamedHere name f g)
    {change : Bag → α → Bag} (hc : ∀ a, Bag.Adds fun b => change b a) (x : Option α) :
    NamedHere name (f.applyOption (fun f a => f.modifyBag fun b => change b a) x)
      (g.applyOption (fun f a => f.modifyBag fun b => change b a) x) := by
  cases x with
  | none => exact h
  | some a => exact h.modifyBag (hc a)

end Fragment

/-! ## The fragments of a node with and without its name -/

namespace Traits

open Fragment (Named NamedHere)

theorem named_leadingFragment {t : Traits} {name : String} (h : t.name? = some name) :
    NamedHere name t.leadingFragment t.unnamed.leadingFragment := by
  obtain ⟨merged, hmerged, hname⟩ := Option.bind_eq_some_iff.1 h
  obtain ⟨fragments, hmetas, rfl⟩ := Option.map_eq_some_iff.1 hmerged
  have hbag : (fragments.foldl Bag.merge {}).unnamed.named name = fragments.foldl Bag.merge {} :=
    Bag.named_unnamed (Bag.extract_of_extractName? hname).1
  have hrest : (fragments.foldl Bag.merge {}).unnamed =
      (fragments.map Bag.unnamedFragment).foldl Bag.merge {} :=
    Bag.unnamed_foldl_merge fragments {}
  have hvalues : t.unnamed.valueFragment = t.valueFragment := rfl
  have hunnamed : t.unnamed.metas = (some (fragments.map Bag.unnamedFragment)).filter
      fun fragments => fragments.any fun fragment => !fragment.isEmpty := by
    rw [← Option.map_some, ← hmetas]
    rfl
  rw [leadingFragment_eq, leadingFragment_eq, hvalues, hmerged, mergedMeta, hunnamed, hmetas,
    ← hbag, Option.filter_some]
  refine ⟨?_, rfl⟩
  cases hany : (fragments.map Bag.unnamedFragment).any fun fragment => !fragment.isEmpty with
  | true =>
    rw [List.any_eq_true] at hany
    obtain ⟨fragment, hmem, hne⟩ := hany
    rw [if_pos rfl, Option.map_some, ← hrest]
    refine .beside rfl ?_
    rw [hrest]
    exact Bag.isEmpty_foldl_merge _ _ (.inr ⟨fragment, hmem, by rintro rfl; cases hne⟩)
  | false =>
    rw [List.any_eq_false] at hany
    rw [hrest, Bag.foldl_merge_of_all_empty _ _ fun fragment hmem => by
      simpa using hany fragment hmem]
    exact .alone

theorem named_commonFragment {t : Traits} {name : String} (h : t.name? = some name) :
    Named name (t.commonFragment t.leadingFragment)
      (t.unnamed.commonFragment t.unnamed.leadingFragment) := by
  have hbag := (((named_leadingFragment h).applyBag Bag.adds_pushNotes t.notes).applyBag
    Bag.adds_pushTags t.tags).applyBag Bag.adds_setUnit t.unit
  exact (((hbag.named.applyInsert "examples" (fun es => .array (exampleValues es))
    t.examples).applyInsert "title" Json.string t.label).applyInsert "description" Json.string
    t.description).applyInsert "default" id t.flags.default

end Traits

/-! ## Paths -/

namespace Options

variable {o : Options} {d : Description}

/-- The paths under which nodes are registered. -/
def pathsOf (o : Options) (ds : List Description) : List String :=
  ds.filterMap fun d => d.name?.map o.extractionPath

theorem mem_pathsOf {ds : List Description} {path : String} :
    path ∈ o.pathsOf ds ↔ ∃ d ∈ ds, ∃ name, d.name? = some name ∧ o.extractionPath name = path := by
  simp only [pathsOf, List.mem_filterMap, Option.map_eq_some_iff]

theorem pathsOf_mono {ds es : List Description} (h : ds ⊆ es) : o.pathsOf ds ⊆ o.pathsOf es := by
  intro path hp
  obtain ⟨d, hd, hpath⟩ := mem_pathsOf.1 hp
  exact mem_pathsOf.2 ⟨d, h hd, hpath⟩

theorem pathsOf_cons_of_name {name : String} (h : d.name? = some name) (later : List Description) :
    o.pathsOf (d :: later) = o.extractionPath name :: o.pathsOf later := by
  rw [pathsOf, List.filterMap_cons, h]
  rfl

end Options
end Schemata
