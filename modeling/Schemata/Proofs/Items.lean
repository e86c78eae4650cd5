import Schemata.Proofs.Children
import Schemata.Proofs.Combinator
import Schemata.Proofs.Overlay
/-!
# Items — what an array makes of its two lists

An array has items for any place and items by place.  The first list is converted before the second,
from the registry that the node was given, and the second from the registry that the first left.  What
the keywords of an array look like depends on how many of both gave a schema: items by place take the
keyword that the others have when they are alone (`ItemKeywords`).  They stand behind the keywords of the
rules, which hold what the last rule of each sort says (`CountKeywords`), and nothing else is written
(`Description.convert_items`).
-/
namespace Schemata

/-! ## Keywords -/

/-- **Several schemas in the place of one**: one stands as it is, of more any may hold, and none leaves
nothing. -/
inductive Collapses : List Json → Option Json → Prop where
  | none : Collapses [] none
  | one (schema : Json) : Collapses [schema] (some schema)
  | several {schemas : List Json} (h : 2 ≤ schemas.length) :
    Collapses schemas (some (.object [("anyOf", .array schemas)]))

/-- **The keywords for the items of an array**, of which the schemas for any place and those by place
are given. -/
inductive ItemKeywords (anywhere : List Json) : List Json → Members Json → Prop where
  | anywhere {all? : Option Json} (hall : Collapses anywhere all?) :
    ItemKeywords anywhere [] (Members.present [("items", all?)])
  | byPlace {byPlace : List Json} {more? : Option Json} (hsome : byPlace ≠ [])
    (hmore : Collapses anywhere more?) :
    ItemKeywords anywhere byPlace
      (Members.present [("items", some (.array byPlace)), ("additionalItems", more?)])

theorem ItemKeywords.nodup {anywhere byPlace : List Json} {items : Members Json}
    (h : ItemKeywords anywhere byPlace items) : (Members.names items).Nodup := by
  cases h with
  | anywhere => exact (Members.names_present_sublist _).nodup (by simp)
  | byPlace => exact (Members.names_present_sublist _).nodup (by simp)

theorem ItemKeywords.among {anywhere byPlace : List Json} {items : Members Json}
    (h : ItemKeywords anywhere byPlace items) :
    Members.Among ["items", "additionalItems"] items := by
  intro m hm
  have hname := List.mem_map_of_mem (f := Prod.fst) hm
  cases h with
  | anywhere =>
    exact List.mem_cons.2 (.inl (List.mem_singleton.1 ((Members.names_present_sublist _).subset hname)))
  | byPlace => exact (Members.names_present_sublist _).subset hname

namespace Keywords

theorem collapses_collapse : ∀ schemas : List Json, Collapses schemas (collapse schemas)
  | [] => .none
  | [schema] => .one schema
  | _ :: _ :: _ => .several (Nat.le_add_left 2 _)

/-- Whatever the fragment, the keywords for the items are inserted. -/
theorem exists_itemKeywords (anywhere : List Json) : ∀ byPlace : List Json,
    ∃ items, ItemKeywords anywhere byPlace items ∧
      ∀ f, insertItems anywhere byPlace f = f.insertAll items
  | [] => by
    refine ⟨_, .anywhere (collapses_collapse anywhere), fun f => ?_⟩
    rw [insertItems]
    cases collapse anywhere <;> rfl
  | schema :: schemas => by
    refine ⟨_, .byPlace (List.cons_ne_nil schema schemas) (collapses_collapse anywhere), fun f => ?_⟩
    rw [insertItems]
    cases collapse anywhere <;> rfl

/-- The keywords for the items are none of those of the rules, so they stand behind them. -/
theorem ofList_append_items {keywords : Members Json}
    (hkeywords : Members.Among arrayTraitKeywords keywords) {anywhere byPlace : List Json}
    {items : Members Json} (hitems : ItemKeywords anywhere byPlace items) :
    Members.ofList (keywords ++ items) = Members.ofList keywords ++ items := by
  rw [Members.ofList, Members.insertAll_append]
  refine Members.insertAll_of_disjoint hitems.nodup fun name hname hmem => ?_
  obtain ⟨m, hm, rfl⟩ := List.mem_map.1 hname
  obtain ⟨m', hm', heq⟩ := List.mem_map.1 hmem
  have hown := (Members.mem_insertAll keywords hm').elim
    (fun h => absurd h List.not_mem_nil) (hkeywords m')
  rw [heq] at hown
  exact (by decide : ∀ name ∈ ["items", "additionalItems"], name ∉ arrayTraitKeywords) _
    (hitems.among m hm) hown

end Keywords

/-! ## Rules -/

/-- **What the last rule of a sort says** of all rules with these names; nothing when there is none. -/
structure LastSays (names : List String) (value : Rule → Json) (rules : List Rule)
    (value? : Option Json) : Prop where
  present : ∀ rule behind, IsLast (fun rule => rule.name ∈ names) rules rule behind →
    value? = some (value rule)
  absent : (∀ rule ∈ rules, rule.name ∉ names) → value? = none

/-- **The keywords of the rules of an array**: the type, the arguments of the last rules that say how many
items there are at least and at most, and whether some rule wants them to differ. -/
structure CountKeywords (rules : List Rule) (keywords : Members Json) : Prop where
  among : Members.Among Keywords.arrayTraitKeywords keywords
  type : Members.get? keywords "type" = some (.string "array")
  least : LastSays ["min", "length"] Rule.arg rules (Members.get? keywords "minItems")
  most : LastSays ["max", "length"] Rule.arg rules (Members.get? keywords "maxItems")
  unique : LastSays ["unique"] (fun _ => .bool true) rules (Members.get? keywords "uniqueItems")

namespace Keywords

variable {settings : Settings} {t : Traits} {rule : Rule} {rules : List Rule} {f g : Fragment}

/-- **What a rule of an array does**, if it is accepted: it sets limits to its argument, or wants the items
to differ, or is skipped. -/
theorem applyArrayRule_cases (h : applyArrayRule settings f rule = .ok g) :
    (rule.name = "min" ∧ g = f.insert "minItems" rule.arg) ∨
    (rule.name = "max" ∧ g = f.insert "maxItems" rule.arg) ∨
    (rule.name = "length" ∧ g = (f.insert "minItems" rule.arg).insert "maxItems" rule.arg) ∨
    (rule.name = "unique" ∧ g = f.insert "uniqueItems" (.bool true)) ∨
    (rule.name ∉ ["min", "max", "length", "unique"] ∧ g = f) := by
  have hlimit : ∀ set : Json → Fragment, (numberArg "array" rule).map set = .ok g →
      g = set rule.arg := by
    intro set hset
    obtain ⟨n, hn, rfl⟩ := exists_ok_of_map hset
    obtain ⟨a, harg, rfl⟩ := numberArg_ok hn
    rw [harg]
  unfold applyArrayRule applyLimit? at h
  by_cases hmin : rule.name = "min"
  · rw [if_pos hmin] at h
    exact .inl ⟨hmin, hlimit _ h⟩
  · rw [if_neg hmin] at h
    by_cases hmax : rule.name = "max"
    · rw [if_pos hmax] at h
      exact .inr (.inl ⟨hmax, hlimit _ h⟩)
    · rw [if_neg hmax] at h
      by_cases hlength : rule.name = "length"
      · rw [if_pos hlength] at h
        exact .inr (.inr (.inl ⟨hlength,
          hlimit (fun n => (f.insert "minItems" n).insert "maxItems" n) h⟩))
      · rw [if_neg hlength] at h
        dsimp only at h
        by_cases hunique : rule.name = "unique"
        · rw [if_pos hunique] at h
          split at h
          · cases h
          · split at h <;> cases h
            exact .inr (.inr (.inr (.inl ⟨hunique, rfl⟩)))
        · rw [if_neg hunique] at h
          exact .inr (.inr (.inr (.inr ⟨by simp [hmin, hmax, hlength, hunique], skipRule_ok h⟩)))

/-- **What stands under these keywords after one rule**: what it says, or what stood there before. -/
structure Counted (f : Fragment) (rule : Rule) (g : Fragment) : Prop where
  type : g.get? "type" = f.get? "type"
  least : g.get? "minItems" =
    if rule.name ∈ ["min", "length"] then some rule.arg else f.get? "minItems"
  most : g.get? "maxItems" =
    if rule.name ∈ ["max", "length"] then some rule.arg else f.get? "maxItems"
  unique : g.get? "uniqueItems" =
    if rule.name ∈ ["unique"] then some (.bool true) else f.get? "uniqueItems"

theorem counted_of_applyArrayRule (h : applyArrayRule settings f rule = .ok g) :
    Counted f rule g := by
  rcases applyArrayRule_cases h with ⟨hname, rfl⟩ | ⟨hname, rfl⟩ | ⟨hname, rfl⟩ | ⟨hname, rfl⟩ |
    ⟨hname, rfl⟩
  case inr.inr.inr.inr =>
    simp only [List.mem_cons, List.not_mem_nil, or_false, not_or] at hname
    constructor <;> simp [hname]
  all_goals
    constructor <;> simp [hname, Fragment.get?_insert_self, Fragment.get?_insert_of_ne]

/-- When one rule sets a keyword if it has one of these names, and leaves it alone otherwise, then what
stands under the keyword in the end is what the last of them says. -/
theorem lastSays_of_foldlM {keyword : String} {names : List String} {value : Rule → Json}
    (hstep : ∀ {f rule g}, applyArrayRule settings f rule = .ok g →
      g.get? keyword = if rule.name ∈ names then some (value rule) else f.get? keyword)
    (hfree : f.get? keyword = none) (h : rules.foldlM (applyArrayRule settings) f = .ok g) :
    LastSays names value rules (g.get? keyword) := by
  have hkeeps : ∀ (f : Fragment) (rule : Rule) (g : Fragment), rule.name ∉ names →
      applyArrayRule settings f rule = .ok g → g.get? keyword = f.get? keyword := by
    intro f rule g hname hrule
    rw [hstep hrule, if_neg hname]
  refine ⟨fun rule behind hlast => ?_, fun hnone => ?_⟩
  · obtain ⟨f₁, f₂, hrule, hget⟩ := hlast.observe_eq (fun f : Fragment => f.get? keyword) hkeeps h
    rw [hget, hstep hrule, if_pos hlast.holds]
  · rw [foldlM_keeps (fun f : Fragment => f.get? keyword) hkeeps hnone h, hfree]

/-- **What the rules of an array write into nothing.** -/
theorem countKeywords_of_applyArrayTraits {own : Fragment}
    (h : applyArrayTraits settings t {} = .ok own) : CountKeywords t.rules own.keywords := by
  obtain ⟨ms, hms, hown⟩ := (writes_applyArrayTraits settings t).gains h
  have hrules : t.rules.foldlM (applyArrayRule settings)
      (Fragment.insert {} "type" (.string "array")) = .ok own := by
    unfold applyArrayTraits at h
    cases hsparse : t.flags.sparse with
    | true =>
      rw [hsparse] at h
      cases h
    | false =>
      rw [hsparse] at h
      exact h
  refine ⟨fun m hm => ?_, ?_,
    lastSays_of_foldlM (fun h => (counted_of_applyArrayRule h).least) rfl hrules,
    lastSays_of_foldlM (fun h => (counted_of_applyArrayRule h).most) rfl hrules,
    lastSays_of_foldlM (fun h => (counted_of_applyArrayRule h).unique) rfl hrules⟩
  · rw [hown, Fragment.keywords_insertAll] at hm
    exact (Members.mem_insertAll ms hm).elim (fun h => absurd h List.not_mem_nil) (hms m)
  · exact foldlM_keeps (fun f : Fragment => f.get? "type") (p := fun _ => False)
      (fun _ _ _ _ h => (counted_of_applyArrayRule h).type) (fun _ _ h => h) hrules

end Keywords

/-! ## Written fragments -/

namespace Fragment

theorem toMembers_insertAll : ∀ (new : Members Json) {f : Fragment},
    (Members.names f.keywords).Nodup → bagKey ∉ Members.names f.keywords →
    f.slot ≤ f.keywords.length → (∀ m ∈ new, m.1 ≠ bagKey) →
      (f.insertAll new).toMembers = Members.insertAll f.toMembers new
  | [], _, _, _, _, _ => rfl
  | (name, value) :: new, f, hnodup, hkey, hslot, hnew => by
    rw [List.forall_mem_cons] at hnew
    have hkey' : bagKey ∉ Members.names (f.insert name value).keywords := by
      intro hmem
      obtain ⟨m, hm, hname⟩ := List.mem_map.1 hmem
      rcases Members.mem_insert hm with rfl | hm
      · exact hnew.1 hname
      · exact hkey (List.mem_map.2 ⟨m, hm, hname⟩)
    have hslot' : f.slot ≤ (f.insert name value).keywords.length := by
      have hlength := (Members.names_prefix_insertAll [(name, value)] f.keywords).length_le
      rw [Members.names, Members.names, List.length_map, List.length_map] at hlength
      exact Nat.le_trans hslot hlength
    have ih := toMembers_insertAll new (f := f.insert name value)
      (Members.nodup_insert hnodup name value) hkey' hslot' hnew.2
    rw [toMembers_insert hnodup hkey hslot] at ih
    exact ih

theorem takeExtract_insertAll (f : Fragment) (new : Members Json) :
    (f.insertAll new).takeExtract.2 = f.takeExtract.2.insertAll new := by
  rw [takeExtract_eq, takeExtract_eq, insertAll_eq, insertAll_eq]

end Fragment

/-- **A fragment with common keywords only**, and the bag before, behind or among them. -/
structure Fragment.IsCommon (f : Fragment) : Prop where
  plain : f.Plain
  slot_le : f.slot ≤ f.keywords.length
  subset : Members.names f.keywords ⊆ Traits.commonNames

namespace Fragment.IsCommon

variable {f : Fragment}

theorem takeExtract (h : f.IsCommon) : f.takeExtract.2.IsCommon := by
  have hslot : f.takeExtract.2.slot = f.slot := by rw [takeExtract_eq]
  refine ⟨h.plain.of_keywords f.keywords_takeExtract, ?_, ?_⟩
  · rw [hslot, keywords_takeExtract]
    exact h.slot_le
  · rw [keywords_takeExtract]
    exact h.subset

theorem among_toMembers (h : f.IsCommon) : Members.Among Traits.commonNames f.toMembers := by
  intro m hm
  rcases mem_toMembers hm with hm | hname
  · exact h.subset (List.mem_map_of_mem hm)
  · rw [hname]
    decide

/-- Other keywords are written behind the common ones. -/
theorem toMembers_insertAll (h : f.IsCommon) {own : Members Json}
    (hown : ∀ m ∈ own, m.1 ∉ Traits.commonNames) :
    (f.insertAll own).toMembers = f.toMembers ++ Members.ofList own := by
  have hmeta : ∀ m ∈ own, m.1 ≠ bagKey := fun m hm hname =>
    hown m hm (hname ▸ (by decide : bagKey ∈ Traits.commonNames))
  rw [Fragment.toMembers_insertAll own h.plain.nodup h.plain.bagKey_not_mem h.slot_le hmeta]
  refine Members.insertAll_of_not_mem fun m hm hmem => ?_
  obtain ⟨m', hm', hname⟩ := List.mem_map.1 hmem
  exact hown m hm (hname ▸ h.among_toMembers m' hm')

/-- The keywords of an array stand behind the common ones, those for its items last. -/
theorem toJson_items (h : f.IsCommon) {keywords : Members Json}
    (hkeywords : Members.Among Keywords.arrayTraitKeywords keywords) {anywhere byPlace : List Json}
    {items : Members Json} (hitems : ItemKeywords anywhere byPlace items) :
    (f.insertAll (keywords ++ items)).toJson =
      .object (f.toMembers ++ Members.ofList keywords ++ items) := by
  have hown : Members.Among Kind.array.ownKeywords (keywords ++ items) :=
    (hkeywords.mono (by decide)).append (hitems.among.mono (by decide))
  rw [toJson, h.toMembers_insertAll fun m hm => Kind.array.ownKeywords_not_common m.1 (hown m hm),
    Keywords.ofList_append_items hkeywords hitems, List.append_assoc]

end Fragment.IsCommon

theorem Traits.isCommon_commonFragment (t : Traits) :
    (t.commonFragment t.leadingFragment).IsCommon := by
  refine ⟨t.plain_commonFragment t.plain_leadingFragment, ?_, ?_⟩
  · rw [keywords_common, commonFragment_eq, Fragment.slot_insertAll, bagFragment_eq,
      List.length_append]
    dsimp only
    split
    · exact Nat.le_add_right _ _
    · exact Nat.zero_le _
  · rw [keywords_common]
    exact t.names_keywords_subset

/-! ## A node -/

/-- A schema is written, or registered and referred to. -/
def Registry.place (r : Registry) (schema : Json) : Option String → Option Json × Registry
  | none => (some schema, r)
  | some path => (some (.reference path), r.register path schema)

namespace Description

open Conversion (Gathers gathers_pure exists_of_bind_ok eq_of_lift_ok)

variable {o : Options} {d : Description}

theorem convertItems_gathers : ∀ ds : List Description,
    (convertItems o o.elsewhere ds).Gathers o id ds fun gathered => gathered.map Prod.snd
  | [] => gathers_pure rfl
  | d :: ds => by
    rw [convertItems]
    intro r schemas t h
    obtain ⟨schema?, s, hd, h⟩ := exists_of_bind_ok h
    obtain ⟨rest, _, hrest, hpure⟩ := exists_of_bind_ok h
    cases hpure
    obtain ⟨gathered, hgathered, rfl⟩ := convertItems_gathers ds s rest _ hrest
    refine ⟨_, hgathered.cons (a := d) hd, ?_⟩
    cases schema? <;> rfl

theorem convertItems?_gathers (ds? : Option (List Description)) :
    (convertItems? o o.elsewhere ds?).Gathers o id (ds?.getD []) fun gathered =>
      gathered.map Prod.snd := by
  cases ds? with
  | none => exact gathers_pure rfl
  | some ds => exact convertItems_gathers ds

/-- **An array that is converted** has the keywords that its rules write into nothing and those for its
items behind the common ones, and so it has once the name to register under is taken out. -/
theorem items_of_run {r t : Registry} {g : Fragment}
    (h : (Kind.array.convert o.toSettings d.toTraits (d.conversionsBelow o o.elsewhere)
      (d.commonFragment d.leadingFragment)).run r = (.ok g, t)) :
    ∃ anywhere byPlace own s items,
      Gathering o id (d.items.getD []) anywhere r s ∧
      Gathering o id (d.orderedItems.getD []) byPlace s t ∧
      Keywords.applyArrayTraits o.toSettings d.toTraits {} = .ok own ∧
      ItemKeywords (anywhere.map Prod.snd) (byPlace.map Prod.snd) items ∧
      ∀ f ∈ [g, g.takeExtract.2], ∃ front, Members.Among Traits.commonNames front ∧
        f.toJson = .object (front ++ own.keywords ++ items) := by
  obtain ⟨f₁, _, hlift, hitems⟩ := exists_of_bind_ok h
  obtain ⟨htraits, rfl⟩ := eq_of_lift_ok hlift
  obtain ⟨_, s, hanywhere, hordered⟩ := exists_of_bind_ok hitems
  obtain ⟨_, _, hbyPlace, hpure⟩ := exists_of_bind_ok hordered
  cases hpure
  obtain ⟨anywhere, hgathered, rfl⟩ := convertItems?_gathers _ _ _ _ hanywhere
  obtain ⟨byPlace, hgathered', rfl⟩ := convertItems?_gathers _ _ _ _ hbyPlace
  obtain ⟨items, hkeywords, hinsert⟩ :=
    Keywords.exists_itemKeywords (anywhere.map Prod.snd) (byPlace.map Prod.snd)
  -- The rules write the same into the common keywords as into nothing.
  rcases (Keywords.writes_applyArrayTraits o.toSettings d.toTraits).cases with
    ⟨e, hfails⟩ | ⟨ms, hms, hwrites⟩
  · rw [hfails] at htraits
    cases htraits
  · rw [hwrites] at htraits
    cases htraits
    have hcommon := d.isCommon_commonFragment
    have hown : (Fragment.insertAll {} ms).keywords = Members.ofList ms :=
      Fragment.keywords_insertAll ms {}
    refine ⟨anywhere, byPlace, _, s, items, hgathered, hgathered', hwrites {}, hkeywords, ?_⟩
    simp only [List.forall_mem_cons, hinsert, ← Fragment.insertAll_append,
      Fragment.takeExtract_insertAll, hown]
    exact ⟨⟨_, hcommon.among_toMembers, hcommon.toJson_items hms hkeywords⟩,
      ⟨_, hcommon.takeExtract.among_toMembers, hcommon.takeExtract.toJson_items hms hkeywords⟩,
      List.forall_mem_nil _⟩

/-- **The items of an array.**  An array whose path is taken is not converted again.  Any other that
succeeds has converted its items for any place from the registry it was given, and then those by place;
its schema has the common keywords, then those that its rules write into nothing, which hold what the
last rule of each sort says, and behind them the keywords for the schemas that the two lists gave.  The
registry is the one that the second list left, where the schema is added if the node has a path. -/
theorem convert_items {r r' : Registry} {result : Option Json}
    (hkind : o.resolve d.typeName = some (.inr .array))
    (h : (d.convert o).run r = (.ok result, r')) :
    (∃ path, o.path? d = some path ∧ path ∈ r.paths ∧ result = some (.reference path) ∧ r' = r) ∨
    ∃ anywhere byPlace own s t front items,
      Gathering o id (d.items.getD []) anywhere r s ∧
      Gathering o id (d.orderedItems.getD []) byPlace s t ∧
      Members.Among Traits.commonNames front ∧
      Keywords.applyArrayTraits o.toSettings d.toTraits {} = .ok own ∧
      CountKeywords d.rules own.keywords ∧
      ItemKeywords (anywhere.map Prod.snd) (byPlace.map Prod.snd) items ∧
      (result, r') = t.place (.object (front ++ own.keywords ++ items)) (o.path? d) := by
  rw [convert_eq, convertWith_eq, convertNode_of_kind hkind, Options.extraction?_eq_path?] at h
  cases Conversion.ending_of_run h with
  | referred hpath htaken =>
    exact .inl ⟨_, hpath, Registry.contains_iff.1 htaken, rfl, rfl⟩
  | written hpath hrun =>
    obtain ⟨anywhere, byPlace, own, s, items, hgathered, hgathered', htraits, hitems, hjson⟩ :=
      items_of_run hrun
    obtain ⟨front, hfront, hjson⟩ := hjson _ List.mem_cons_self
    refine .inr ⟨anywhere, byPlace, own, s, _, front, items, hgathered, hgathered', hfront, htraits,
      Keywords.countKeywords_of_applyArrayTraits htraits, hitems, ?_⟩
    rw [hpath, ← hjson]
    rfl
  | registered hpath _ hrun =>
    obtain ⟨anywhere, byPlace, own, s, items, hgathered, hgathered', htraits, hitems, hjson⟩ :=
      items_of_run hrun
    obtain ⟨front, hfront, hjson⟩ := hjson _ (List.mem_cons_of_mem _ List.mem_cons_self)
    refine .inr ⟨anywhere, byPlace, own, s, _, front, items, hgathered, hgathered', hfront, htraits,
      Keywords.countKeywords_of_applyArrayTraits htraits, hitems, ?_⟩
    rw [hpath, ← hjson]
    rfl

/-- Both lists have an item that is dropped and one that is registered under the same path, so that one
item by place is left and several for any place.  A limit is set, and then both are set once more. -/
theorem convert_items_shared :
    let o : Options := { extract := true, ignoreUnknownTypes := true }
    let named : Description := { typeName := "string", metas := some [[("extract", .string "A")]] }
    let unknown : Description := { typeName := "symbol" }
    let number : Description := { typeName := "number" }
    let two : Json := .number (.natural 2)
    let d : Description :=
      { typeName := "array", label := some "List"
        rules := [{ name := "max", arg := .number (.natural 1) }, { name := "unique" },
          { name := "length", arg := two }]
        items := some [unknown, named, number], orderedItems := some [named, unknown] }
    o.resolve d.typeName = some (.inr .array) ∧
    ∃ result r' front keywords, (d.convert o).run {} = (.ok result, r') ∧
      Members.Among Traits.commonNames front ∧
      Members.names keywords = ["type", "maxItems", "uniqueItems", "minItems"] ∧
      Members.get? keywords "minItems" = some two ∧ Members.get? keywords "maxItems" = some two ∧
      Members.get? keywords "uniqueItems" = some (.bool true) ∧
      result = some (.object (front ++ keywords ++
        [("items", .array [.reference "/A"]),
         ("additionalItems", .object
           [("anyOf", .array [.reference "/A", .object [("type", .string "number")]])])])) ∧
      r'.paths = ["/A"] := by
  intro o named unknown number two d
  have hkind : o.resolve d.typeName = some (.inr .array) := rfl
  obtain ⟨result, r', hrun⟩ : ∃ result r', (d.convert o).run {} = (.ok result, r') := ⟨_, _, rfl⟩
  have hanywhere : Gathering o id [unknown, named, number] _ {} _ :=
    .dropped rfl (.kept rfl (.kept rfl .nil))
  rcases convert_items hkind hrun with ⟨path, hpath, -⟩ |
    ⟨anywhere, byPlace, own, s, _, front, items, hgathered, hgathered', hfront, htraits, hcounts,
      hitems, hplaced⟩
  · cases hpath
  · obtain ⟨rfl, rfl⟩ := hgathered.unique hanywhere
    obtain ⟨rfl, rfl⟩ := hgathered'.unique (.kept rfl (.dropped rfl .nil))
    cases hplaced
    cases hitems with
    | byPlace _ hmore =>
      cases hmore with
      | several =>
        refine ⟨hkind, _, _, front, own.keywords, hrun, hfront, ?_, ?_, ?_, ?_, rfl, rfl⟩
        · cases htraits
          rfl
        · exact hcounts.least.present _ [] ⟨⟨[_, _], rfl⟩, by decide, by decide⟩
        · exact hcounts.most.present _ [] ⟨⟨[_, _], rfl⟩, by decide, by decide⟩
        · exact hcounts.unique.present _ [_] ⟨⟨[_], rfl⟩, by decide, by decide⟩

end Description
end Schemata
