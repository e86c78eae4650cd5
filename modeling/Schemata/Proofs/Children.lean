import Schemata.Proofs.Dependencies
import Schemata.Proofs.Gathering
/-!
# Children — what an object makes of its lists

An object writes four keywords beside those of its rules and flags: the schemas of its children, those
of its key patterns, its dependencies and the names of the children that are required.  The first two
are tables of what was gathered from the lists, and the names are those of the gathered children that
are required (`Description.Composed`).

When no two children have the same key, the table of the children is the list of what was gathered:
nothing is lost, nothing is added, and the order is that of the declaration.  What a forbidden child
says makes no difference at all (`Description.convert_children`).
-/
namespace Schemata

open List (Forall₂)

/-- The names of the required children as the value of a keyword, unless there are none. -/
def Keywords.requiredValue? (names : List String) : Option Json :=
  if names = [] then none else some (.array (names.map .string))

theorem Keywords.required?_eq (names : List String) :
    required? (names.map .string) = requiredValue? names := by
  cases names <;> rfl

/-! ## What is composed of the gathered schemas -/

namespace Description

/-- The keys of the children that gave a schema and are required. -/
def requiredNames (children : List ((String × Description) × Json)) : List String :=
  (children.filter fun c => c.1.2.presence = .required).map fun c => c.1.1

/-- The schemas of children under their keys. -/
def childMembers (children : List ((String × Description) × Json)) : Members Json :=
  children.map fun c => (c.1.1, c.2)

/-- The schemas of key patterns under their keys. -/
def patternMembers (patterns : List (PatternRule Description × Json)) : Members Json :=
  patterns.map fun p => (p.1.key, p.2)

/-- **The keywords of an object are composed of what was gathered** from its children and then from
its key patterns; `value?` looks a keyword up. -/
structure Composed (o : Options) (d : Description) (r t : Registry) (value? : String → Option Json)
    (children : List ((String × Description) × Json))
    (patterns : List (PatternRule Description × Json)) : Prop where
  gathered : ∃ s, Gathering o Prod.snd d.allowedChildren children r s ∧
    Gathering o PatternRule.rule (d.patterns.getD []) patterns s t
  properties : value? "properties" =
    d.children.map fun _ => .object (Members.ofList (childMembers children))
  required : value? "required" = Keywords.requiredValue? (requiredNames children)
  patternProperties : value? "patternProperties" =
    d.patterns.map fun _ => .object (Members.ofList (patternMembers patterns))

theorem requiredKeys_converted (children : List ((String × Description) × Json)) :
    Keywords.requiredKeys (children.map converted) = (requiredNames children).map .string := by
  rw [Keywords.requiredKeys, requiredNames, List.filter_map, List.map_map, List.map_map]
  exact congrArg (List.map _) (List.filter_congr fun c _ => by simp [converted])

theorem properties_converted (children : List ((String × Description) × Json)) :
    Keywords.properties (children.map converted) =
      .object (Members.ofList (childMembers children)) := by
  rw [Keywords.properties, List.map_map]
  rfl

variable {o : Options} {d : Description}

/-- Without a list of children none is required. -/
theorem required?_gathered {children : List ((String × Description) × Json)}
    (hnone : d.children = none → children = []) :
    Keywords.required? (((d.children.map fun _ => children.map converted).map
      Keywords.requiredKeys).getD []) = Keywords.requiredValue? (requiredNames children) := by
  rw [← Keywords.required?_eq, ← requiredKeys_converted]
  cases hchildren : d.children with
  | none =>
    rw [hnone hchildren]
    rfl
  | some cs => rfl

/-- **An object that is converted** is composed of what its lists gave. -/
theorem composed_of_run {settings : Settings} {f g : Fragment} {r t : Registry}
    (hfree : ∀ name ∈ Kind.object.ownKeywords, f.get? name = none)
    (h : (Kind.object.convert settings d.toTraits (d.conversionsBelow o o.elsewhere) f).run r =
      (.ok g, t)) :
    ∃ children patterns, d.Composed o r t g.get? children patterns := by
  obtain ⟨f₁, _, s, _, f₂, htraits, hchildren, hpatterns, hdependencies, rfl⟩ :=
    Keywords.exists_of_applyObject_ok h
  obtain ⟨children, hgathered, rfl⟩ := children_gathers r _ s hchildren
  obtain ⟨patterns, hgathered', rfl⟩ := patterns_gathers s _ t hpatterns
  have hnone : d.children = none → children = [] := by
    intro hchildren
    have hsublist := hgathered.sublist
    rw [allowedChildren, hchildren] at hsublist
    exact List.map_eq_nil_iff.1 (List.sublist_nil.1 hsublist)
  -- The keywords of the lists are free when they are inserted, each where the steps before left it.
  have hfree₁ : ∀ name ∈ Kind.object.ownKeywords, name ∉ Keywords.objectTraitKeywords →
      f₁.get? name = none := fun name hname hnot =>
    (((Keywords.writes_applyObjectTraits settings _).gains htraits).get?_of_not_mem hnot).trans
      (hfree name hname)
  have hgains := (Keywords.writes_applyDependencies d.dependencies).gains hdependencies
  refine ⟨children, patterns, ⟨s, hgathered, hgathered'⟩, ?_, ?_, ?_⟩
  · rw [Fragment.get?_insertOption_of_ne _ (by decide), hgains.get?_of_not_mem (by decide),
      Fragment.get?_insertOption_of_ne _ (by decide),
      Fragment.get?_insertOption_self (hfree₁ _ (by decide) (by decide)), Option.map_map]
    exact Option.map_congr fun _ _ => properties_converted children
  · rw [Fragment.get?_insertOption_self, required?_gathered hnone]
    rw [hgains.get?_of_not_mem (by decide), Fragment.get?_insertOption_of_ne _ (by decide),
      Fragment.get?_insertOption_of_ne _ (by decide), hfree₁ _ (by decide) (by decide)]
  · rw [Fragment.get?_insertOption_of_ne _ (by decide), hgains.get?_of_not_mem (by decide),
      Fragment.get?_insertOption_self, Option.map_map]
    · rfl
    · rw [Fragment.get?_insertOption_of_ne _ (by decide), hfree₁ _ (by decide) (by decide)]

variable {r r' : Registry} {result : Option Json}

/-- What an object gives is composed of what its lists gave. -/
theorem exists_composed (hkind : o.resolve d.typeName = some (.inr .object)) (hopen : d.IsOpen o r)
    (h : (d.convert o).run r = (.ok result, r')) :
    ∃ ms children patterns t, Output o d .object r ms result r' ∧
      d.Composed o r t (Members.get? ms) children patterns := by
  obtain ⟨g, t, ms, hrun, houtput, hlookup⟩ := output_of_run hkind (by decide) hopen h
  obtain ⟨children, patterns, hcomposed⟩ :=
    composed_of_run (fun _ hname => d.get?_commonFragment hname) hrun
  exact ⟨ms, children, patterns, t, houtput, hcomposed.gathered,
    (hlookup _ (by decide)).trans hcomposed.properties,
    (hlookup _ (by decide)).trans hcomposed.required,
    (hlookup _ (by decide)).trans hcomposed.patternProperties⟩

/-! ## Forbidden children -/

/-- The same child, or two that are both forbidden. -/
def SameUnlessForbidden (c c' : String × Description) : Prop :=
  c = c' ∨ c.2.presence = .forbidden ∧ c'.2.presence = .forbidden

theorem convertChildren_eq_of_same {other : Description → Conversion (Option Json)}
    {cs cs' : List (String × Description)} (h : Forall₂ SameUnlessForbidden cs cs') :
    convertChildren o other cs = convertChildren o other cs' := by
  induction h with
  | nil => rfl
  | @cons c c' cs cs' hc _ ih =>
    obtain ⟨key, e⟩ := c
    obtain ⟨key', e'⟩ := c'
    rw [convertChildren, convertChildren, ih]
    rcases hc with heq | ⟨hforbidden, hforbidden'⟩
    · cases heq
      rfl
    · rw [if_pos hforbidden, if_pos hforbidden']

/-- **What a forbidden child says makes no difference** to an object. -/
theorem convert_eq_of_same {cs cs' : List (String × Description)}
    (hkind : o.resolve d.typeName = some (.inr .object)) (hcs : d.children = some cs)
    (hsame : Forall₂ SameUnlessForbidden cs cs') :
    ({ d with children := some cs' } : Description).convert o = d.convert o := by
  have hbelow : conversionsBelow o o.elsewhere { d with children := some cs' } =
      conversionsBelow o o.elsewhere d := by
    simp only [conversionsBelow, hcs, convertChildren?, convertChildren_eq_of_same hsame]
  have hkind' : o.resolve ({ d with children := some cs' } : Description).typeName =
      some (.inr .object) := hkind
  rw [convert_eq, convert_eq, convertWith_eq, convertWith_eq, convertNode_of_kind hkind,
    convertNode_of_kind hkind', hbelow]

/-! ## Children under distinct keys -/

/-- **The children of an object**, no two under the same key, are converted in the order of their
declaration without those that are forbidden, and each that is not dropped stands under its key with
the schema that it gave; no other key stands there.  Of these keys, those whose children are required
are listed, in the same order, and there is no list when there are none.  And a forbidden child may
say what it will. -/
theorem convert_children (hkind : o.resolve d.typeName = some (.inr .object))
    (hkeys : ((d.children.getD []).map Prod.fst).Nodup)
    (h : (d.convert o).run r = (.ok result, r')) :
    (d.IsOpen o r → ∃ ms children s, Output o d .object r ms result r' ∧
      Gathering o Prod.snd d.allowedChildren children r s ∧
      Members.get? ms "properties" = (d.children.map fun _ => .object (childMembers children)) ∧
      Members.get? ms "required" = Keywords.requiredValue? (requiredNames children)) ∧
    ∀ cs cs', d.children = some cs → Forall₂ SameUnlessForbidden cs cs' →
      (({ d with children := some cs' } : Description).convert o).run r = (.ok result, r') := by
  refine ⟨fun hopen => ?_, fun cs cs' hcs hsame => by rw [convert_eq_of_same hkind hcs hsame, h]⟩
  obtain ⟨ms, children, patterns, t, houtput, hcomposed⟩ := exists_composed hkind hopen h
  obtain ⟨s, hgathered, -⟩ := hcomposed.gathered
  have hnodup : (Members.names (childMembers children)).Nodup := by
    have hsublist := (hgathered.sublist.trans List.filter_sublist).map Prod.fst
    have hnames : Members.names (childMembers children) =
        (children.map Prod.fst).map Prod.fst := by
      rw [Members.names, childMembers, List.map_map, List.map_map]
      rfl
    rw [hnames]
    exact hsublist.nodup hkeys
  refine ⟨ms, children, s, houtput, hgathered, ?_, hcomposed.required⟩
  rw [hcomposed.properties, Members.ofList,
    Members.insertAll_of_disjoint hnodup fun _ _ => List.not_mem_nil, List.nil_append]

/-- Five children: one is registered and another refers to it, one is forbidden and may be anything
else that is, one is required but dropped, and one is optional. -/
theorem convert_children_mixed :
    let o : Options := { extract := true, handlers := [("opaque", fun _ _ _ => .finish none)] }
    let named : Description :=
      { typeName := "string", flags := { presence := some .required },
        metas := some [[("extract", .string "A")]] }
    let forbidden : Description :=
      { typeName := "symbol", flags := { presence := some .forbidden } }
    let cs : List (String × Description) :=
      [("a", named), ("b", forbidden),
       ("c", { typeName := "opaque", flags := { presence := some .required } }),
       ("d", named), ("e", { typeName := "number" })]
    let d : Description := { typeName := "object", children := some cs }
    o.resolve d.typeName = some (.inr .object) ∧ (cs.map Prod.fst).Nodup ∧
    ∃ result r' ms, (d.convert o).run {} = (.ok result, r') ∧
      Output o d .object {} ms result r' ∧
      Members.get? ms "properties" = some (.object
        [("a", .reference "/A"), ("d", .reference "/A"),
         ("e", .object [("type", .string "number")])]) ∧
      Members.get? ms "required" = some (.array [.string "a", .string "d"]) ∧
      ∀ b, b.presence = .forbidden →
        (({ d with children := some (cs.set 1 ("b", b)) } : Description).convert o).run {} =
          (.ok result, r') := by
  intro o named forbidden cs d
  have hkind : o.resolve d.typeName = some (.inr .object) := rfl
  have hkeys : (cs.map Prod.fst).Nodup := by decide
  have hopen : d.IsOpen o {} := fun _ _ => List.not_mem_nil
  obtain ⟨result, r', hrun⟩ : ∃ result r', (d.convert o).run {} = (.ok result, r') := ⟨_, _, rfl⟩
  obtain ⟨hlists, hforbidden⟩ := convert_children hkind hkeys hrun
  obtain ⟨ms, children, s, houtput, hgathered, hproperties, hrequired⟩ := hlists hopen
  have hall : Gathering o Prod.snd d.allowedChildren _ {} _ :=
    .kept rfl (.dropped rfl (.kept rfl (.kept rfl .nil)))
  obtain ⟨rfl, -⟩ := hgathered.unique hall
  refine ⟨hkind, hkeys, result, r', ms, hrun, houtput, hproperties, hrequired, fun b hb => ?_⟩
  refine hforbidden cs (cs.set 1 ("b", b)) rfl ?_
  exact .cons (.inl rfl) (.cons (.inr ⟨rfl, hb⟩) (List.forall₂_same.2 fun _ _ => .inl rfl))

end Description
end Schemata
