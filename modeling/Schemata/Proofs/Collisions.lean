import Mathlib.Data.List.Induction
import Mathlib.Data.List.Perm.Subperm
import Schemata.Proofs.Children
import Schemata.Proofs.Folds
/-!
# Collisions — entries of an object under the same key

The lists below an object may have several entries under one key: children because a list may repeat a
key, key patterns because different literals may have the same body.  A table has one entry a key.  It
stands where the key first stood, and the last schema is in it (`Members.Collapsed`).  The list of the
required keys is not a table: a key is in it once for every required child that gave a schema under it
(`Description.convert_collisions`, `Description.convert_collisions_lost`).
-/
namespace Schemata

/-! ## Tables of entries whose names repeat -/

namespace Members

variable {α : Type} {ms : Members α}

/-- **A table of entries** has each name once, where it first stood, with the last value under it;
it has an entry for every one of them if and only if they have distinct names. -/
structure Collapsed (entries table : Members α) : Prop where
  names_eq : names table = (names entries).eraseDups
  last : ∀ m behind, IsLast (fun e => e.1 = m.1) entries m behind → get? table m.1 = some m.2
  length_eq_iff : table.length = entries.length ↔ (names entries).Nodup

theorem names_ofList (ms : Members α) : names (ofList ms) = (names ms).eraseDups := by
  induction ms using List.reverseRecOn with
  | nil => rfl
  | append_singleton ms m ih =>
    obtain ⟨name, value⟩ := m
    have hnames : names (ms ++ [(name, value)]) = names ms ++ [name] := List.map_append
    have hlast : ofList (ms ++ [(name, value)]) = insert (ofList ms) name value :=
      insertAll_append [] ms [(name, value)]
    rw [hlast, names_insert, ih, hnames, eraseDups_concat]
    exact if_congr List.mem_eraseDups rfl rfl

theorem get?_ofList_of_isLast {m : String × α} {behind : Members α}
    (h : IsLast (fun e => e.1 = m.1) ms m behind) : get? (ofList ms) m.1 = some m.2 := by
  obtain ⟨before, rfl⟩ := h.split
  have hsplit : ofList (before ++ m :: behind) = insertAll (insert (ofList before) m.1 m.2) behind :=
    insertAll_append [] before (m :: behind)
  have hbehind : m.1 ∉ names behind := by
    intro hmem
    obtain ⟨e, he, hname⟩ := List.mem_map.1 hmem
    exact h.none_behind e he hname
  rw [hsplit, get?_insertAll_of_not_mem hbehind, get?_insert_self]

theorem length_ofList_eq_iff : (ofList ms).length = ms.length ↔ (names ms).Nodup := by
  constructor
  · intro hlength
    -- The table repeats no name and has no new one, so it is the names rearranged when it is as long.
    have hnodup : (names (ofList ms)).Nodup := nodup_insertAll ms List.nodup_nil
    have hsubset : names (ofList ms) ⊆ names ms := by
      intro name hname
      rwa [names_ofList, List.mem_eraseDups] at hname
    have hperm : (names (ofList ms)).Perm (names ms) := by
      refine (List.subperm_of_subset hnodup hsubset).perm_of_length_le (Nat.le_of_eq ?_)
      rw [names, names, List.length_map, List.length_map, hlength]
    exact hperm.nodup_iff.1 hnodup
  · intro hnodup
    rw [ofList, insertAll_of_disjoint hnodup fun _ _ => List.not_mem_nil, List.nil_append]

theorem collapsed_ofList (ms : Members α) : Collapsed ms (ofList ms) :=
  ⟨names_ofList ms, fun _ _ => get?_ofList_of_isLast, length_ofList_eq_iff⟩

end Members

/-! ## An object -/

namespace Description

variable {o : Options} {d : Description} {r r' : Registry} {result : Option Json}
  {children : List ((String × Description) × Json)} {key : String}

/-- A required child that stands under a key. -/
def isRequired (key : String) (c : (String × Description) × Json) : Bool :=
  c.1.1 = key ∧ c.1.2.presence = .required

/-- A key is listed once for every required child under it. -/
theorem count_requiredNames (children : List ((String × Description) × Json)) (key : String) :
    (requiredNames children).count key = children.countP (isRequired key) := by
  rw [requiredNames, List.count_eq_countP, List.countP_map, List.countP_filter]
  refine congrArg (fun p => children.countP p) (funext fun c => ?_)
  simp only [isRequired, Function.comp_apply, beq_eq_decide, Bool.decide_and]

theorem mem_names_of_mem_requiredNames (h : key ∈ requiredNames children) :
    key ∈ Members.names (Members.ofList (childMembers children)) := by
  obtain ⟨c, hc, rfl⟩ := List.mem_map.1 h
  rw [Members.names_ofList, List.mem_eraseDups, Members.names, childMembers, List.map_map]
  exact List.mem_map_of_mem (f := fun c => c.1.1) (List.mem_filter.1 hc).1

/-- Without children none is required. -/
theorem children_of_mem_requiredNames {s : Registry}
    (hgathered : Gathering o Prod.snd d.allowedChildren children r s)
    (h : key ∈ requiredNames children) : ∃ cs, d.children = some cs := by
  obtain ⟨c, hc, -⟩ := List.mem_map.1 h
  have hallowed : c.1 ∈ d.allowedChildren :=
    hgathered.sublist.subset (List.mem_map_of_mem (List.mem_filter.1 hc).1)
  rw [allowedChildren] at hallowed
  cases hchildren : d.children with
  | some cs => exact ⟨cs, rfl⟩
  | none =>
    rw [hchildren] at hallowed
    exact absurd hallowed List.not_mem_nil

/-- **The lists of an object**, whichever keys they repeat.  A key that is listed as required is a key
of the children's table; it is listed once for every required child that gave a schema under it, so
that no key is listed twice if and only if there is at most one such child under each.  The schemas of
the key patterns collapse into a table: each key has one entry, and the last pattern that gave a schema
under the key is in it. -/
theorem convert_collisions (hkind : o.resolve d.typeName = some (.inr .object))
    (hopen : d.IsOpen o r) (h : (d.convert o).run r = (.ok result, r')) :
    ∃ ms children patterns t, Output o d .object r ms result r' ∧
      d.Composed o r t (Members.get? ms) children patterns ∧
      (∀ key ∈ requiredNames children, ∃ table,
        Members.get? ms "properties" = some (.object table) ∧ key ∈ Members.names table) ∧
      ((requiredNames children).Nodup ↔ ∀ key, children.countP (isRequired key) ≤ 1) ∧
      ∀ ps, d.patterns = some ps → ∃ table,
        Members.get? ms "patternProperties" = some (.object table) ∧
        Members.Collapsed (patternMembers patterns) table := by
  obtain ⟨ms, children, patterns, t, houtput, hcomposed⟩ := exists_composed hkind hopen h
  obtain ⟨s, hgathered, -⟩ := hcomposed.gathered
  refine ⟨ms, children, patterns, t, houtput, hcomposed, fun key hkey => ?_, ?_, fun ps hps => ?_⟩
  · obtain ⟨cs, hcs⟩ := children_of_mem_requiredNames hgathered hkey
    refine ⟨_, ?_, mem_names_of_mem_requiredNames hkey⟩
    rw [hcomposed.properties, hcs]
    rfl
  · rw [List.nodup_iff_count_le_one]
    exact forall_congr' fun key => by rw [count_requiredNames]
  · refine ⟨_, ?_, Members.collapsed_ofList _⟩
    rw [hcomposed.patternProperties, hps]
    rfl

/-- A key with a required child and an optional one, and three patterns, two of which have the same
body. -/
theorem convert_collisions_repeated :
    let text : Description := { typeName := "string" }
    let required : Description := { typeName := "string", flags := { presence := some .required } }
    let number : Description := { typeName := "number" }
    let d : Description :=
      { typeName := "object"
        children := some [("a", required), ("b", required), ("a", number)]
        patterns := some
          [{ regex := some "/x/", rule := text }, { regex := some "y", rule := text },
           { regex := some "/x/i", rule := number }] }
    ({} : Options).resolve d.typeName = some (.inr .object) ∧ d.IsOpen {} {} ∧
    ∃ result r' ms table, ∃ names : List String, (d.convert {}).run {} = (.ok result, r') ∧
      Output {} d .object {} ms result r' ∧
      Members.get? ms "required" = some (.array (names.map .string)) ∧ names.Nodup ∧
      Members.get? ms "patternProperties" = some (.object table) ∧
      Members.names table = ["x", "y"] ∧
      Members.get? table "x" = some (.object [("type", .string "number")]) := by
  intro text required number d
  have hkind : ({} : Options).resolve d.typeName = some (.inr .object) := rfl
  have hopen : d.IsOpen {} {} := fun _ _ => List.not_mem_nil
  obtain ⟨result, r', hrun⟩ : ∃ result r', (d.convert {}).run {} = (.ok result, r') := ⟨_, _, rfl⟩
  obtain ⟨ms, children, patterns, t, houtput, hcomposed, -, -, hpatterns⟩ :=
    convert_collisions hkind hopen hrun
  obtain ⟨s, hchildren, hgathered⟩ := hcomposed.gathered
  have hall : Gathering {} Prod.snd d.allowedChildren _ {} _ :=
    .kept rfl (.kept rfl (.kept rfl .nil))
  obtain ⟨rfl, rfl⟩ := hchildren.unique hall
  have hall' : Gathering {} PatternRule.rule (d.patterns.getD []) _ {} _ :=
    .kept rfl (.kept rfl (.kept rfl .nil))
  obtain ⟨rfl, rfl⟩ := hgathered.unique hall'
  obtain ⟨table, htable, hcollapsed⟩ := hpatterns _ rfl
  have hlast := hcollapsed.last ("x", _) [] ⟨⟨[_, _], rfl⟩, rfl, by decide⟩
  refine ⟨hkind, hopen, result, r', ms, table, ["a", "b"], hrun, houtput, hcomposed.required,
    by decide, htable, hcollapsed.names_eq.trans (by decide +kernel), hlast⟩

/-- **A key is listed twice, and the schema of a pattern is lost**: two required children have one
key, and the literals of two patterns have one body. -/
theorem convert_collisions_lost :
    let text : Description := { typeName := "string" }
    let number : Description := { typeName := "number" }
    let required : Description := { typeName := "string", flags := { presence := some .required } }
    let ps : List (PatternRule Description) :=
      [{ regex := some "/x/", rule := text }, { regex := some "/x/i", rule := number }]
    let d : Description :=
      { typeName := "object", children := some [("a", required), ("a", required)],
        patterns := some ps }
    (∀ p ∈ ps, ∃ schema, ((p.rule.convert {}).run {}).1 = .ok (some schema)) ∧
    ∃ ms names table, ((d.convert {}).run {}).1 = .ok (some (.object ms)) ∧
      Members.get? ms "required" = some (.array names) ∧ ¬names.Nodup ∧
      Members.get? ms "patternProperties" = some (.object table) ∧ table.length < ps.length := by
  intro text number required ps d
  refine ⟨?_, [("type", .string "object"),
      ("properties", .object [("a", .object [("type", .string "string")])]),
      ("patternProperties", .object [("x", .object [("type", .string "number")])]),
      ("required", .array [.string "a", .string "a"])],
    [.string "a", .string "a"], [("x", .object [("type", .string "number")])],
    rfl, rfl, by simp, rfl, by decide⟩
  simp only [ps, List.forall_mem_cons]
  exact ⟨⟨_, rfl⟩, ⟨_, rfl⟩, fun _ hp => absurd hp List.not_mem_nil⟩

end Description
end Schemata
