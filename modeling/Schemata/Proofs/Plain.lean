import Schemata.Proofs.Bag
import Schemata.Proofs.OwnKeywords
import Schemata.Proofs.Place
/-!
# Plain — keywords that hold no schemas

Most keywords are plain: they hold a text, a number or a list of values, and no schema, reference or
metadata.  The traits of a node give plain keywords only, whatever the kind; so the keywords with
schemas are those that an array, an object or an alternation takes from the descriptions below.  No
keyword is written twice.
-/
namespace Schemata

def AllPlain (ms : Members Json) : Prop := ∀ m ∈ ms, IsPlain m.1

theorem allPlain_nil : AllPlain [] := fun _ hm => absurd hm List.not_mem_nil

/-! ## Fragments -/

namespace Fragment

/-- A fragment with plain keywords, none of them twice. -/
structure Plain (f : Fragment) : Prop where
  keywords : AllPlain f.keywords
  nodup : (Members.names f.keywords).Nodup

theorem plain_empty : Plain {} := ⟨allPlain_nil, List.nodup_nil⟩

theorem Plain.insert {f : Fragment} (h : f.Plain) {name : String} (hn : IsPlain name)
    (value : Json) : (f.insert name value).Plain := by
  refine ⟨fun m hm => ?_, Members.nodup_insert h.nodup name value⟩
  rcases Members.mem_insert hm with rfl | hm
  · exact hn
  · exact h.keywords m hm

theorem Plain.insertAll : ∀ (new : Members Json) {f : Fragment}, f.Plain → AllPlain new →
    (f.insertAll new).Plain
  | [], _, h, _ => h
  | (_, value) :: new, _, h, hnew =>
    Plain.insertAll new (h.insert (hnew _ List.mem_cons_self) value)
      fun m hm => hnew m (List.mem_cons_of_mem _ hm)

theorem Plain.modifyBag {f : Fragment} (h : f.Plain) (change : Bag → Bag) :
    (f.modifyBag change).Plain := by
  unfold Fragment.modifyBag openBag
  cases f.bag <;> exact ⟨h.keywords, h.nodup⟩

theorem dropEmptyBag_eq (f : Fragment) :
    f.dropEmptyBag = { f with bag := f.bag.filter fun b => !b.isEmpty } := by
  obtain ⟨keywords, _ | b, slot⟩ := f
  · rfl
  · cases hb : b.isEmpty <;> simp [dropEmptyBag, Option.filter, hb]

/-- Taking the name out changes the bag only. -/
theorem takeExtract_eq (f : Fragment) : f.takeExtract.2 =
    { f with bag := (f.bag.map fun b => b.takeExtract.2).filter fun b => !b.isEmpty } := by
  obtain ⟨keywords, _ | b, slot⟩ := f
  · rfl
  · exact dropEmptyBag_eq ⟨keywords, some b.takeExtract.2, slot⟩

theorem takeTerm_eq (f : Fragment) : f.takeTerm.2 =
    { f with bag := (f.bag.map fun b => b.takeTerm.2).filter fun b => !b.isEmpty } := by
  obtain ⟨keywords, _ | b, slot⟩ := f
  · rfl
  · exact dropEmptyBag_eq ⟨keywords, some b.takeTerm.2, slot⟩

theorem keywords_takeTerm (f : Fragment) : f.takeTerm.2.keywords = f.keywords := by
  rw [takeTerm_eq]

theorem keywords_takeExtract (f : Fragment) : f.takeExtract.2.keywords = f.keywords := by
  rw [takeExtract_eq]

theorem Plain.of_keywords {f g : Fragment} (h : f.Plain) (hkeywords : g.keywords = f.keywords) :
    g.Plain :=
  ⟨hkeywords ▸ h.keywords, hkeywords ▸ h.nodup⟩

theorem Plain.takeTerm {f : Fragment} (h : f.Plain) : f.takeTerm.2.Plain :=
  h.of_keywords f.keywords_takeTerm

theorem Plain.bagKey_not_mem {f : Fragment} (h : f.Plain) : bagKey ∉ Members.names f.keywords := by
  intro hmem
  obtain ⟨m, hm, hname⟩ := List.mem_map.1 hmem
  exact (h.keywords m hm).2.2 hname

/-! ## Keywords leave the bag alone -/

theorem bag_insertAll : ∀ (new : Members Json) (f : Fragment), (f.insertAll new).bag = f.bag
  | [], _ => rfl
  | _ :: new, f => bag_insertAll new (f.insert _ _)

theorem bag_insertOption (f : Fragment) (name : String) (value? : Option Json) :
    (f.insertOption name value?).bag = f.bag := by
  cases value? <;> rfl

theorem slot_insertAll : ∀ (new : Members Json) (f : Fragment), (f.insertAll new).slot = f.slot
  | [], _ => rfl
  | _ :: new, f => slot_insertAll new (f.insert _ _)

theorem keywords_insertAll : ∀ (new : Members Json) (f : Fragment),
    (f.insertAll new).keywords = Members.insertAll f.keywords new
  | [], _ => rfl
  | _ :: new, f => keywords_insertAll new (f.insert _ _)

theorem mem_toMembers {f : Fragment} {m : String × Json} (h : m ∈ f.toMembers) :
    m ∈ f.keywords ∨ m.1 = bagKey := by
  unfold toMembers at h
  cases hb : f.bag with
  | none =>
    rw [hb] at h
    exact .inl h
  | some b =>
    rw [hb] at h
    rcases Members.mem_insertAll _ h with h | h
    · rcases Members.mem_insert h with rfl | h
      · exact .inr rfl
      · exact .inl (List.mem_of_mem_take h)
    · exact .inl (List.mem_of_mem_drop h)

end Fragment

/-! ## What traits give -/

namespace Traits

theorem plain_leadingFragment (t : Traits) : t.leadingFragment.Plain := by
  have hnull : ∀ f : Fragment, f.Plain →
      (if t.valids.any Json.isNull then f.insert "nullable" (.bool true) else f).Plain := by
    intro f h
    split
    · exact h.insert (by decide) _
    · exact h
  have henum : ∀ f : Fragment, f.Plain →
      (if t.flags.allowOnly && !t.valids.isEmpty then
        f.insert "enum" (.array (t.valids.filter fun value => !value.isNull))
      else f).Plain := by
    intro f h
    split
    · exact h.insert (by decide) _
    · exact h
  unfold leadingFragment
  cases t.metas with
  | none => exact henum _ (hnull _ Fragment.plain_empty)
  | some fragments => exact (henum _ (hnull _ Fragment.plain_empty)).modifyBag _

/-- **What plain keywords and additions to the bag keep**, the common keywords keep. -/
theorem commonFragment_induction {P : Fragment → Prop}
    (insert : ∀ f key value, IsPlain key → P f → P (f.insert key value))
    (bag : ∀ f change, Bag.Adds change → P f → P (f.modifyBag change))
    (t : Traits) {f : Fragment} (h : P f) : P (t.commonFragment f) := by
  have happly : ∀ {α : Type} {change : Fragment → α → Fragment} {f : Fragment} (x : Option α),
      (∀ a f, P f → P (change f a)) → P f → P (f.applyOption change x) := by
    intro α change f x hchange hf
    cases x with
    | none => exact hf
    | some a => exact hchange a f hf
  unfold commonFragment
  refine happly _ (fun a f => insert f _ _ (by decide)) ?_
  refine happly _ (fun a f => insert f _ _ (by decide)) ?_
  refine happly _ (fun a f => insert f _ _ (by decide)) ?_
  refine happly _ (fun a f => insert f _ _ (by decide)) ?_
  refine happly _ (fun a f => bag f _ (Bag.adds_setUnit a)) ?_
  refine happly _ (fun a f => bag f _ (Bag.adds_pushTags a)) ?_
  exact happly _ (fun a f => bag f _ (Bag.adds_pushNotes a)) h

theorem plain_commonFragment (t : Traits) {f : Fragment} (h : f.Plain) :
    (t.commonFragment f).Plain :=
  commonFragment_induction (fun _ _ value hk h => h.insert hk value)
    (fun _ change _ h => h.modifyBag change) t h

end Traits

namespace Keywords

theorem allPlain_of_among {names : List String} (hn : ∀ name ∈ names, IsPlain name)
    {ms : Members Json} (h : Members.Among names ms) : AllPlain ms :=
  fun m hm => hn m.1 (h m hm)

theorem bag_insertItems (anywhere byPlace : List Json) (f : Fragment) :
    (insertItems anywhere byPlace f).bag = f.bag := by
  unfold insertItems
  split
  · exact f.bag_insertOption _ _
  · exact (f.insert _ _).bag_insertOption _ _

/-- What plain keywords leave as it is: plain keywords, and the bag at its place. -/
structure Kept (f g : Fragment) : Prop where
  plain : f.Plain → g.Plain
  bag : g.bag = f.bag
  slot : g.slot = f.slot

theorem kept_of_gains {names : List String} {f g : Fragment} (h : f.Gains names g)
    (hn : ∀ name ∈ names, IsPlain name) : Kept f g := by
  obtain ⟨ms, hms, rfl⟩ := h
  have hplain := allPlain_of_among hn hms
  exact ⟨fun hf => hf.insertAll ms hplain, f.bag_insertAll ms, f.slot_insertAll ms⟩

end Keywords
end Schemata
