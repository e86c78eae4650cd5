import Schemata.Proofs.Common
import Schemata.Proofs.Gathering
/-!
# Combinator — where the branches of an alternation stand

An alternation has no keyword of its own: its branches stand under the combinator, which the metadata
may name, and any text will do.  They are inserted into the schema that the common keywords gave, after
the combinator was taken out of the metadata.  So all that an alternation declares is written as for
every other kind, unless the combinator is the name of a common keyword: then the branches stand in the
place of what was declared (`Description.convert_alternatives`,
`Description.convert_alternatives_lost`).
-/
namespace Schemata

/-! ## Insertion into members that were joined -/

namespace Members

variable {α : Type} {name : String}

theorem insert_append_of_mem (value : α) (more : Members α) : ∀ {ms : Members α}, name ∈ names ms →
    insert (ms ++ more) name value = insert ms name value ++ more
  | [], h => absurd h List.not_mem_nil
  | (n, v) :: ms, h => by
    rw [List.cons_append, insert, insert]
    by_cases hn : n = name
    · rw [if_pos hn, if_pos hn, List.cons_append]
    · have h : name ∈ names ms := (List.mem_cons.1 h).resolve_left (Ne.symm hn)
      rw [if_neg hn, if_neg hn, insert_append_of_mem value more h, List.cons_append]

theorem length_insert_of_mem (value : α) {ms : Members α} (h : name ∈ names ms) :
    (insert ms name value).length = ms.length := by
  have hnames := congrArg List.length (names_insert_of_mem value h)
  rwa [names, names, List.length_map, List.length_map] at hnames

end Members

namespace Fragment

variable {f : Fragment} {name : String}

/-- A keyword that is new is written at the end, or over the bag if it has its name. -/
theorem toMembers_insert_of_not_mem (hslot : f.slot ≤ f.keywords.length) (value : Json)
    (h : name ∉ Members.names f.keywords) :
    (f.insert name value).toMembers = Members.insert f.toMembers name value := by
  have hkeywords : (f.insert name value).keywords = f.keywords ++ [(name, value)] :=
    Members.insert_of_not_mem name value f.keywords h
  have hbag : (f.insert name value).bag = f.bag := rfl
  have hplace : (f.insert name value).slot = f.slot := rfl
  unfold toMembers
  rw [hkeywords, hbag, hplace]
  cases f.bag with
  | none => exact (Members.insert_of_not_mem name value f.keywords h).symm
  | some b =>
    dsimp only
    rw [List.take_append_of_le_length hslot, List.drop_append_of_le_length hslot,
      Members.insertAll_append]
    rfl

/-- **A keyword is inserted into the written fragment** as it is into the fragment. -/
theorem toMembers_insert (hnodup : (Members.names f.keywords).Nodup)
    (hkey : bagKey ∉ Members.names f.keywords) (hslot : f.slot ≤ f.keywords.length) (name : String)
    (value : Json) : (f.insert name value).toMembers = Members.insert f.toMembers name value := by
  by_cases hmem : name ∈ Members.names f.keywords
  · have hnames : Members.names (f.insert name value).keywords = Members.names f.keywords :=
      Members.names_insert_of_mem value hmem
    have hne : name ≠ bagKey := fun h => hkey (h ▸ hmem)
    have hbag : (f.insert name value).bag = f.bag := rfl
    have hplace : (f.insert name value).slot = f.slot := rfl
    have hsplit : f.keywords = f.keywords.take f.slot ++ f.keywords.drop f.slot :=
      (List.take_append_drop _ _).symm
    have hlength : (f.keywords.take f.slot).length = f.slot := List.length_take_of_le hslot
    rw [toMembers_eq hnodup hkey, toMembers_eq (hnames ▸ hnodup) (hnames ▸ hkey), hbag, hplace]
    -- The bag stands between the keywords; only the side that has the keyword changes.
    by_cases hbefore : name ∈ Members.names (f.keywords.take f.slot)
    · have hkeywords : (f.insert name value).keywords =
          Members.insert (f.keywords.take f.slot) name value ++ f.keywords.drop f.slot := by
        rw [← Members.insert_append_of_mem value _ hbefore, ← hsplit]
        rfl
      have hlength' : (Members.insert (f.keywords.take f.slot) name value).length = f.slot := by
        rw [Members.length_insert_of_mem value hbefore, hlength]
      rw [hkeywords, List.take_left' hlength', List.drop_left' hlength', List.append_assoc,
        List.append_assoc, Members.insert_append_of_mem value _ hbefore]
    · have hkeywords : (f.insert name value).keywords =
          f.keywords.take f.slot ++ Members.insert (f.keywords.drop f.slot) name value := by
        rw [← Members.insert_append_of_not_mem value _ hbefore, ← hsplit]
        rfl
      have hbag' : name ∉ Members.names (f.keywords.take f.slot ++ bagMembers f.bag) := by
        rw [Members.names, List.map_append, List.mem_append, not_or]
        refine ⟨hbefore, ?_⟩
        cases f.bag with
        | none => exact List.not_mem_nil
        | some b => exact fun h => hne (List.mem_singleton.1 h)
      rw [hkeywords, List.take_left' hlength, List.drop_left' hlength,
        Members.insert_append_of_not_mem value _ hbag']
  · exact toMembers_insert_of_not_mem hslot value hmem

end Fragment

/-! ## What is left of the metadata -/

namespace Bag

/-- The bag without a combinator. -/
def withoutTerm (b : Bag) : Bag := { b with term := b.term.filter fun v => v.string?.isNone }

theorem takeTerm_snd (b : Bag) : b.takeTerm.2 = b.withoutTerm := by
  obtain ⟨entries, notes, tags, unit, extract, term⟩ := b
  rcases term with _ | v
  · rfl
  · cases v <;> rfl

end Bag

namespace Traits

/-- The combinator of an alternation: the one that the merged metadata names, if it is a text. -/
def combinator (t : Traits) : String :=
  ((t.mergedMeta.bind Bag.term).bind Json.string?).getD Keywords.defaultCombinator

/-- The metadata of an alternation, without the combinator; there is none when nothing else is in
it. -/
def remainingMetadata? (t : Traits) : Option Bag :=
  (t.metadata?.map Bag.withoutTerm).filter fun b => !b.isEmpty

/-- **What an alternation declares** apart from its branches: the common keywords, each with its value
if it applies. -/
def declaredKeywords (t : Traits) : List (String × Option Json) :=
  t.valueKeywords ++ ("meta", t.remainingMetadata?.map Bag.toJson) :: t.textKeywords

theorem present_declaredKeywords (t : Traits) :
    Members.present t.declaredKeywords =
      Members.present t.valueKeywords ++ Fragment.bagMembers t.remainingMetadata? ++
        Members.present t.textKeywords := by
  rw [declaredKeywords, Members.present_append, List.append_assoc]
  cases t.remainingMetadata? <;> rfl

/-- The common keywords once the combinator is taken out of the metadata. -/
theorem takeTerm_commonFragment (t : Traits) :
    (t.commonFragment t.leadingFragment).takeTerm.2 =
      { keywords := Members.present t.valueKeywords ++ Members.present t.textKeywords
        bag := t.remainingMetadata?
        slot := if t.metadata?.isSome then (Members.present t.valueKeywords).length else 0 } := by
  have hbag : (t.commonFragment t.leadingFragment).bag = t.metadata? := by
    rw [commonFragment_eq, Fragment.bag_insertAll, bagFragment_eq]
  have hslot : (t.commonFragment t.leadingFragment).slot =
      if t.metadata?.isSome then (Members.present t.valueKeywords).length else 0 := by
    rw [commonFragment_eq, Fragment.slot_insertAll, bagFragment_eq]
  have hterm : (fun b : Bag => b.takeTerm.2) = Bag.withoutTerm := funext Bag.takeTerm_snd
  rw [Fragment.takeTerm_eq, hbag, hslot, hterm, keywords_common]
  rfl

theorem takeTerm_fst_commonFragment (t : Traits) :
    (t.commonFragment t.leadingFragment).takeTerm.1.getD Keywords.defaultCombinator =
      t.combinator := by
  rw [t.saysAs_commonFragment.takeTerm_fst, combinator]

/-- **The branches are inserted into what is declared.** -/
theorem toMembers_alternation (t : Traits) (name : String) (value : Json) :
    ((t.commonFragment t.leadingFragment).takeTerm.2.insert name value).toMembers =
      Members.insert (Members.present t.declaredKeywords) name value := by
  have hplain := (t.plain_commonFragment t.plain_leadingFragment).takeTerm
  have hkey := hplain.bagKey_not_mem
  have hnodup := hplain.nodup
  rw [takeTerm_commonFragment] at hnodup hkey ⊢
  rw [Fragment.toMembers_insert hnodup hkey, Fragment.toMembers_eq hnodup hkey,
    present_declaredKeywords]
  · dsimp only
    unfold remainingMetadata?
    cases t.metadata? with
    | none => simp [Fragment.bagMembers]
    | some b => rw [Option.isSome_some, if_pos rfl, List.take_left, List.drop_left]
  · dsimp only
    split
    · rw [List.length_append]
      exact Nat.le_add_right _ _
    · exact Nat.zero_le _

end Traits

/-! ## A node -/

namespace Description

variable {o : Options} {d : Description} {r r' : Registry} {result : Option Json}

/-- An alternation inserts the schemas that its branches gave. -/
theorem alternatives_of_run {settings : Settings} {f g : Fragment}
    (h : (Kind.alternatives.convert settings d.toTraits (d.conversionsBelow o o.elsewhere) f).run r =
      (.ok g, r')) :
    ∃ gathered, Gathering o id (d.visitedBy .alternatives) gathered r r' ∧
      g = f.takeTerm.2.insert (f.takeTerm.1.getD Keywords.defaultCombinator)
        (.array (gathered.map Prod.snd)) := by
  rw [Kind.convert, Keywords.applyAlternatives_eq] at h
  obtain ⟨_, _, hlift, hrest⟩ := Conversion.exists_of_bind_ok h
  obtain ⟨-, rfl⟩ := Conversion.eq_of_lift_ok hlift
  obtain ⟨schemas, _, hbranches, hpure⟩ := Conversion.exists_of_bind_ok hrest
  cases hpure
  obtain ⟨gathered, hgathered, rfl⟩ := branches_gathers _ _ _ hbranches
  exact ⟨gathered, hgathered, rfl⟩

/-- **An alternation that is converted where it stands.**  The schemas of its branches, in order and
without those that were dropped, stand under the combinator.  Every other common keyword is there if
and only if it is declared, with the value that is declared; and so all that is declared is kept if and
only if the combinator is not the name of a common keyword, or of one whose value is the very list of
the branches. -/
theorem convert_alternatives (hkind : o.resolve d.typeName = some (.inr .alternatives))
    (hinline : o.path? d = none) (h : (d.convert o).run r = (.ok result, r')) :
    ∃ ms gathered, result = some (.object ms) ∧
      Gathering o id (d.visitedBy .alternatives) gathered r r' ∧
      ms = Members.insert (Members.present d.declaredKeywords) d.combinator
        (.array (gathered.map Prod.snd)) ∧
      Members.get? ms d.combinator = some (.array (gathered.map Prod.snd)) ∧
      (∀ m ∈ d.declaredKeywords, m.1 ≠ d.combinator → Members.get? ms m.1 = m.2) ∧
      ((∀ m ∈ d.declaredKeywords, Members.get? ms m.1 = m.2) ↔
        ∀ m ∈ d.declaredKeywords, m.1 = d.combinator →
          m.2 = some (.array (gathered.map Prod.snd))) := by
  rw [convert_eq, convertWith_eq, convertNode_of_kind hkind, Options.extraction?_eq_path?,
    hinline] at h
  cases Conversion.ending_of_run h with
  | referred hpath => cases hpath
  | registered hpath => cases hpath
  | written _ hrun =>
    obtain ⟨gathered, hgathered, rfl⟩ := alternatives_of_run hrun
    rw [d.takeTerm_fst_commonFragment, Fragment.toJson, d.toMembers_alternation]
    have hself := Members.get?_insert_self d.combinator (.array (gathered.map Prod.snd))
      (Members.present d.declaredKeywords)
    have hother : ∀ m ∈ d.declaredKeywords, m.1 ≠ d.combinator →
        Members.get? (Members.insert (Members.present d.declaredKeywords) d.combinator
          (.array (gathered.map Prod.snd))) m.1 = m.2 := by
      intro m hm hne
      rw [Members.get?_insert_of_ne _ hne.symm]
      exact Members.get?_present Traits.nodup_commonNames hm
    refine ⟨_, gathered, rfl, hgathered, rfl, hself, hother, fun hall m hm hname => ?_,
      fun hsame m hm => ?_⟩
    · rw [← hall m hm, hname, hself]
    · by_cases hname : m.1 = d.combinator
      · rw [hsame m hm hname, hname, hself]
      · exact hother m hm hname

/-- One of several, the second of which is dropped; the metadata names the combinator and an owner. -/
theorem convert_alternatives_one :
    let o : Options := { ignoreUnknownTypes := true }
    let d : Description :=
      { typeName := "alternatives", label := some "Kind", valids := [.null]
        metas := some [[("term", .string "oneOf"), ("owner", .string "billing")]]
        alternatives := some
          [.schema { typeName := "string" }, .schema { typeName := "symbol" },
           .schema { typeName := "number" }] }
    o.resolve d.typeName = some (.inr .alternatives) ∧ o.path? d = none ∧
    ∃ r' ms, (d.convert o).run {} = (.ok (some (.object ms)), r') ∧
      Members.get? ms "oneOf" = some
        (.array [.object [("type", .string "string")], .object [("type", .string "number")]]) ∧
      Members.get? ms "nullable" = some (.bool true) ∧
      Members.get? ms "meta" = some (.object [("owner", .string "billing")]) ∧
      Members.get? ms "title" = some (.string "Kind") ∧
      ∀ m ∈ d.declaredKeywords, Members.get? ms m.1 = m.2 := by
  intro o d
  have hkind : o.resolve d.typeName = some (.inr .alternatives) := rfl
  have hinline : o.path? d = none := rfl
  obtain ⟨result, r', hrun⟩ : ∃ result r', (d.convert o).run {} = (.ok result, r') := ⟨_, _, rfl⟩
  obtain ⟨ms, gathered, hresult, hgathered, -, hbranches, -, hall⟩ :=
    convert_alternatives hkind hinline hrun
  have hboth : Gathering o id (d.visitedBy .alternatives) _ {} _ :=
    .kept rfl (.dropped rfl (.kept rfl .nil))
  obtain ⟨rfl, -⟩ := hgathered.unique hboth
  have hcombinator : d.combinator ∉ Traits.commonNames := by decide
  have hkept : ∀ m ∈ d.declaredKeywords, Members.get? ms m.1 = m.2 := hall.2 fun m hm hname => by
    have hcommon : m.1 ∈ Traits.commonNames := List.mem_map_of_mem (f := Prod.fst) hm
    exact absurd (hname ▸ hcommon) hcombinator
  refine ⟨hkind, hinline, r', ms, hresult ▸ hrun, hbranches, ?_, ?_, ?_, hkept⟩
  · exact hkept ("nullable", some (.bool true)) List.mem_cons_self
  · exact hkept ("meta", some (.object [("owner", .string "billing")])) (by decide)
  · exact hkept ("title", some (.string "Kind")) (by decide)

/-- **A title is lost**: the branches stand in its place. -/
theorem convert_alternatives_lost :
    let d : Description :=
      { typeName := "alternatives", label := some "Kind", metas := some [[("term", .string "title")]]
        alternatives := some [.schema { typeName := "string" }] }
    ("title", some (.string "Kind")) ∈ d.declaredKeywords ∧ ∃ ms,
      ((d.convert {}).run {}).1 = .ok (some (.object ms)) ∧
      Members.get? ms "title" ≠ some (.string "Kind") := by
  intro d
  refine ⟨by decide, [("title", .array [.object [("type", .string "string")]])], rfl, ?_⟩
  simp [Members.get?]

end Description
end Schemata
