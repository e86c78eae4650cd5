import Schemata.Description.Build
import Schemata.Proofs.Paths
import Schemata.Proofs.Unnamed
/-!
# Common keywords — what every kind writes first

A node says some things that have nothing to do with its kind: whether null is allowed, which values
are, its metadata, examples, title, description and default.  They stand first in its schema, in
that order, each if and only if the node says it, and unchanged; the keywords of the kind follow
(`Description.convert_common`).

The metadata is written at a place that was remembered before the later keywords came.  That place is
right because a kind only inserts keywords of its own, which are none of the common ones, so whatever
stands before the place stays there.
-/
namespace Schemata

/-! ## What a node says, whatever its kind -/

namespace Traits

/-- The metadata of a node: fragments merged, then notes, tags and unit.  There is none when the node
has none of these. -/
def metadata? (t : Traits) : Option Bag :=
  if t.metas.isNone && t.notes.isNone && t.tags.isNone && t.unit.isNone then none
  else
    let b := (t.metas.getD []).foldl Bag.merge {}
    let b := t.notes.elim b b.pushNotes
    let b := t.tags.elim b b.pushTags
    some (t.unit.elim b b.setUnit)

/-- The common keywords that stand before the metadata, each with its value if it applies. -/
def valueKeywords (t : Traits) : List (String × Option Json) :=
  [("nullable", if .null ∈ t.valids then some (.bool true) else none),
   ("enum",
    if t.flags.allowOnly = true ∧ t.valids ≠ [] then
      some (.array (t.valids.filter fun value => value ≠ .null))
    else none)]

/-- The common keywords that stand after the metadata. -/
def textKeywords (t : Traits) : List (String × Option Json) :=
  [("examples", t.examples.map fun es => .array (es.filterMap fun e => e.field? "value")),
   ("title", t.label.map .string),
   ("description", t.description.map .string),
   ("default", t.flags.default)]

/-- **The common keywords of a node**, each with its value if it applies. -/
def commonKeywords (t : Traits) : List (String × Option Json) :=
  t.valueKeywords ++ ("meta", t.metadata?.map Bag.toJson) :: t.textKeywords

/-- The common keywords that apply, in order. -/
def commonMembers (t : Traits) : Members Json := Members.present t.commonKeywords

/-- The names of the common keywords, in order. -/
def commonNames : List String :=
  ["nullable", "enum", "meta", "examples", "title", "description", "default"]

theorem map_fst_commonKeywords (t : Traits) : t.commonKeywords.map Prod.fst = commonNames := rfl

theorem nodup_commonNames : commonNames.Nodup := by decide

theorem commonMembers_eq (t : Traits) :
    t.commonMembers = Members.present t.valueKeywords ++ Fragment.bagMembers t.metadata? ++
      Members.present t.textKeywords := by
  rw [commonMembers, commonKeywords, Members.present_append, List.append_assoc]
  cases t.metadata? <;> rfl

/-! ## The fragment that a kind is given -/

theorem any_isNull_iff (values : List Json) : values.any Json.isNull = true ↔ .null ∈ values := by
  rw [List.any_eq_true]
  constructor
  · rintro ⟨v, hv, hnull⟩
    cases v with
    | null => exact hv
    | bool | number | string | array | object => cases hnull
  · exact fun h => ⟨.null, h, rfl⟩

theorem filter_isNull (values : List Json) :
    (values.filter fun v => !v.isNull) = values.filter fun v => v ≠ .null := by
  refine List.filter_congr fun v _ => ?_
  cases v <;> simp [Json.isNull]

theorem valueFragment_eq (t : Traits) :
    t.valueFragment = { keywords := Members.present t.valueKeywords } := by
  unfold valueFragment valueKeywords
  simp only [any_isNull_iff, filter_isNull, Bool.and_eq_true, Bool.not_eq_true',
    List.isEmpty_eq_false_iff]
  split_ifs <;> rfl

/-- The fragment before the second part of the common keywords. -/
def bagFragment (t : Traits) : Fragment :=
  let f := t.leadingFragment
  let f := f.applyOption (fun f notes => f.modifyBag fun b => b.pushNotes notes) t.notes
  let f := f.applyOption (fun f tags => f.modifyBag fun b => b.pushTags tags) t.tags
  f.applyOption (fun f unit => f.modifyBag fun b => b.setUnit unit) t.unit

/-- The metadata is complete by then, and it is remembered that it stands after the first part. -/
theorem bagFragment_eq (t : Traits) :
    t.bagFragment =
      { keywords := Members.present t.valueKeywords
        bag := t.metadata?
        slot := if t.metadata?.isSome then (Members.present t.valueKeywords).length else 0 } := by
  unfold bagFragment metadata?
  rw [leadingFragment_eq, valueFragment_eq]
  unfold mergedMeta
  cases t.metas <;> cases t.notes <;> cases t.tags <;> cases t.unit <;> rfl

end Traits

namespace Fragment

theorem applyOption_insert {α : Type} (f : Fragment) (keyword : String) (value : α → Json)
    (x : Option α) :
    f.applyOption (fun f a => f.insert keyword (value a)) x =
      f.insertAll (Members.present [(keyword, x.map value)]) := by
  cases x <;> rfl

end Fragment

namespace Traits

theorem commonFragment_eq (t : Traits) :
    t.commonFragment t.leadingFragment =
      t.bagFragment.insertAll (Members.present t.textKeywords) := by
  have happend : Members.present t.textKeywords =
      Members.present [("examples", t.examples.map fun es => .array (exampleValues es))] ++
        (Members.present [("title", t.label.map Json.string)] ++
          (Members.present [("description", t.description.map Json.string)] ++
            Members.present [("default", t.flags.default.map id)])) := by
    rw [Option.map_id_fun, id, ← Members.present_append, ← Members.present_append,
      ← Members.present_append]
    rfl
  rw [happend, Fragment.insertAll_append, Fragment.insertAll_append, Fragment.insertAll_append,
    ← Fragment.applyOption_insert, ← Fragment.applyOption_insert, ← Fragment.applyOption_insert,
    ← Fragment.applyOption_insert]
  rfl

end Traits

/-! ## Keywords of a kind after the common ones -/

theorem Kind.ownKeywords_not_common (kind : Kind) :
    ∀ name ∈ kind.ownKeywords, name ∉ Traits.commonNames := by
  cases kind <;> decide

namespace Traits

variable {own : Members Json}

theorem names_keywords_subset (t : Traits) :
    Members.names (Members.present t.valueKeywords ++ Members.present t.textKeywords) ⊆
      commonNames := by
  have hvalues := (Members.names_present_sublist t.valueKeywords).subset
  have htexts := (Members.names_present_sublist t.textKeywords).subset
  rw [Members.names, List.map_append]
  exact List.append_subset.2
    ⟨List.Subset.trans hvalues (by decide : ["nullable", "enum"] ⊆ commonNames),
      List.Subset.trans htexts
        (by decide : ["examples", "title", "description", "default"] ⊆ commonNames)⟩

/-- Keywords other than the common ones come after them. -/
theorem keywords_commonFragment (t : Traits) (hown : ∀ m ∈ own, m.1 ∉ commonNames) :
    ((t.commonFragment t.leadingFragment).insertAll own).keywords =
      Members.present t.valueKeywords ++ (Members.present t.textKeywords ++ Members.ofList own) := by
  have hvalues : Members.names (Members.present t.valueKeywords) ⊆ ["nullable", "enum"] :=
    (Members.names_present_sublist t.valueKeywords).subset
  have hsub := Members.names_present_sublist t.textKeywords
  have htexts : Members.names (Members.present t.textKeywords) ⊆
      ["examples", "title", "description", "default"] := hsub.subset
  have hnodup : (Members.names (Members.present t.textKeywords)).Nodup :=
    hsub.nodup (by decide : ["examples", "title", "description", "default"].Nodup)
  rw [commonFragment_eq, bagFragment_eq, Fragment.keywords_insertAll, Fragment.keywords_insertAll,
    Members.insertAll_of_disjoint hnodup, ← List.append_assoc]
  · exact Members.insertAll_of_not_mem fun m hm hmem =>
      hown m hm (t.names_keywords_subset hmem)
  · intro name hname hmem
    have hdisjoint : ∀ other ∈ ["examples", "title", "description", "default"],
        other ∉ ["nullable", "enum"] := by decide
    exact hdisjoint name (htexts hname) (hvalues hmem)

theorem keywords_common (t : Traits) :
    (t.commonFragment t.leadingFragment).keywords =
      Members.present t.valueKeywords ++ Members.present t.textKeywords := by
  have hnone : ∀ m ∈ ([] : Members Json), m.1 ∉ commonNames := List.forall_mem_nil _
  exact (t.keywords_commonFragment hnone).trans (congrArg _ (List.append_nil _))

theorem nodup_commonFragment (t : Traits) (own : Members Json) :
    (Members.names ((t.commonFragment t.leadingFragment).insertAll own).keywords).Nodup := by
  rw [Fragment.keywords_insertAll]
  exact Members.nodup_insertAll own (t.plain_commonFragment t.plain_leadingFragment).nodup

/-- **A fragment that gained keywords other than the common ones** is written with them at its
end. -/
theorem toMembers_commonFragment (t : Traits) (hown : ∀ m ∈ own, m.1 ∉ commonNames) :
    ((t.commonFragment t.leadingFragment).insertAll own).toMembers =
      t.commonMembers ++ Members.ofList own := by
  have hkeywords := t.keywords_commonFragment hown
  have hmeta : Fragment.bagKey ∉
      Members.names ((t.commonFragment t.leadingFragment).insertAll own).keywords := by
    rw [Fragment.keywords_insertAll]
    intro hmem
    obtain ⟨m, hm, hname⟩ := List.mem_map.1 hmem
    rcases Members.mem_insertAll own hm with hm | hm
    · have hplain := (t.plain_commonFragment t.plain_leadingFragment).keywords m hm
      exact hplain.2.2 hname
    · exact hown m hm (hname ▸ (by decide : Fragment.bagKey ∈ commonNames))
  rw [Fragment.toMembers_eq (t.nodup_commonFragment own) hmeta, hkeywords, Fragment.bag_insertAll,
    Fragment.slot_insertAll, commonFragment_eq, Fragment.bag_insertAll, Fragment.slot_insertAll,
    bagFragment_eq, commonMembers_eq]
  dsimp only
  cases t.metadata? with
  | none => simp [Fragment.bagMembers]
  | some b =>
    rw [Option.isSome_some, if_pos rfl, List.take_left, List.drop_left, List.append_assoc,
      List.append_assoc, List.append_assoc]

end Traits

/-! ## A node -/

namespace Description

open Traits (commonNames)

variable {o : Options} {d : Description} {kind : Kind} {r r' : Registry} {result : Option Json}

/-- A node that is converted where it stands is written as what its kind makes of the common
keywords. -/
theorem written_gains (hkind : Kind.ofName? d.typeName = some kind)
    (halternatives : kind ≠ .alternatives) (hoverride : Members.get? o.handlers d.typeName = none)
    (hinline : o.path? d = none) (h : (d.convert o).run r = (.ok result, r')) :
    ∃ g, (d.commonFragment d.leadingFragment).Gains kind.ownKeywords g ∧
      result = some g.toJson := by
  have hresolve : o.resolve d.typeName = some (.inr kind) := by
    rw [Options.resolve, hoverride, hkind]
    rfl
  change (d.convertWith o _).run r = _ at h
  rw [convertWith_eq, convertNode_of_kind hresolve, Options.extraction?_eq_path?, hinline] at h
  cases Conversion.ending_of_run h with
  | referred hpath => cases hpath
  | registered hpath => cases hpath
  | written _ hrun => exact ⟨_, Kind.convert_gains halternatives _ _ _ _ r _ r' hrun, rfl⟩

/-- **Common keywords are the same for every kind.**  When a node of a kind other than an alternation
is converted where it stands, its schema starts with the common keywords that apply, in their order
and with their values, and only keywords of the kind follow; no keyword is written twice. -/
theorem convert_common (hkind : Kind.ofName? d.typeName = some kind)
    (halternatives : kind ≠ .alternatives) (hoverride : Members.get? o.handlers d.typeName = none)
    (hinline : o.path? d = none) (h : (d.convert o).run r = (.ok result, r')) :
    ∃ own : Members Json,
      result = some (.object (d.commonMembers ++ own)) ∧
      (∀ m ∈ own, m.1 ∈ kind.ownKeywords) ∧
      (Members.names (d.commonMembers ++ own)).Nodup ∧
      ∀ m ∈ d.commonKeywords, Members.get? (d.commonMembers ++ own) m.1 = m.2 := by
  obtain ⟨g, hgains, rfl⟩ := written_gains hkind halternatives hoverride hinline h
  obtain ⟨ms, hms, rfl⟩ := hgains
  have hown : ∀ m ∈ Members.ofList ms, m.1 ∈ kind.ownKeywords := fun m hm =>
    (Members.mem_insertAll ms hm).elim (fun hm => absurd hm List.not_mem_nil) (hms m)
  have hnot : ∀ name ∈ commonNames, name ∉ Members.names (Members.ofList ms) := by
    intro name hname hmem
    obtain ⟨m, hm, rfl⟩ := List.mem_map.1 hmem
    exact kind.ownKeywords_not_common m.1 (hown m hm) hname
  have hnames : (Members.names d.commonMembers).Sublist commonNames :=
    d.map_fst_commonKeywords ▸ Members.names_present_sublist d.commonKeywords
  refine ⟨Members.ofList ms, ?_, hown, ?_, fun m hm => ?_⟩
  · rw [Fragment.toJson, d.toMembers_commonFragment fun m hm =>
      kind.ownKeywords_not_common m.1 (hms m hm)]
  · rw [Members.names, List.map_append, List.nodup_append]
    refine ⟨hnames.nodup Traits.nodup_commonNames, Members.nodup_insertAll ms List.nodup_nil, ?_⟩
    intro name hname other hother heq
    exact hnot name (hnames.subset hname) (heq ▸ hother)
  · rw [Members.get?_append_left (hnot m.1 (List.mem_map_of_mem hm))]
    exact Members.get?_present Traits.nodup_commonNames hm

/-- A port with all common keywords but one, a null default among them. -/
theorem convert_common_port :
    let d : Description :=
      { typeName := "number"
        rules := [{ name := "port" }, { name := "precision" }]
        flags := { allowOnly := true, default := some .null }
        valids := [.null, .string "http"]
        notes := some ["assigned"]
        examples := some [.string "bare", .object [("value", .string "http")]]
        label := some "Port" }
    Kind.ofName? d.typeName = some .number ∧ ∃ own result,
      ((d.convert {}).run {}).1 = .ok result ∧
      result = some (.object (d.commonMembers ++ own)) ∧
      Members.names d.commonMembers = ["nullable", "enum", "meta", "examples", "title", "default"] ∧
      (∀ m ∈ own, m.1 ∈ Kind.number.ownKeywords) ∧
      Members.get? (d.commonMembers ++ own) "default" = some .null ∧
      Members.get? (d.commonMembers ++ own) "description" = none := by
  intro d
  have hkind : Kind.ofName? d.typeName = some .number := by decide
  obtain ⟨result, r', hrun⟩ : ∃ result r', (d.convert {}).run {} = (.ok result, r') := ⟨_, _, rfl⟩
  obtain ⟨own, hresult, hown, -, hvalues⟩ := convert_common hkind (by decide) rfl rfl hrun
  refine ⟨hkind, own, result, by rw [hrun], hresult, rfl, hown, hvalues ("default", some .null) ?_,
    hvalues ("description", none) ?_⟩
  · exact List.mem_append_right _ (by simp [Traits.textKeywords, d])
  · exact List.mem_append_right _ (by simp [Traits.textKeywords, d])

end Description
end Schemata
