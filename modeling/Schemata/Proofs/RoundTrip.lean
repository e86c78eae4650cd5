import Schemata.Description.Build
import Schemata.Proofs.Records
import Schemata.Proofs.Tree
/-!
# RoundTrip — a written description is read as it was

What is left out when a description is written has the value that is supposed when it is missing, so
nothing is lost (`Description.ofJson_toJson`).  Three things must be as they are in any description
that came from a value: a key stands for one child only, a flag without a meaning does not have the
name of one with a meaning, and a condition holds no null.  And a condition must hold something, or
it is written as an object that is no branch.

Reading is by levels.  The descriptions inside a node are written inside what the node is written as,
so they are less deep, and enough levels for the node are enough for them.
-/
namespace Schemata

namespace Description

/-! ## All descriptions inside one -/

/-- The descriptions inside a node: those directly below it, and those of keys. -/
def inside (d : Description) : List Description :=
  d.directlyBelow ++ (d.patterns.getD []).filterMap PatternRule.schema

/-- **A description and all descriptions inside it have a property.** -/
inductive All (P : Description → Prop) : Description → Prop where
  | node {d : Description} (own : P d) (inside : ∀ e ∈ d.inside, All P e) : All P d

theorem All.and {P Q : Description → Prop} {d : Description} (hp : d.All P) (hq : d.All Q) :
    d.All fun e => P e ∧ Q e := by
  induction hp with
  | node own _ ih =>
    cases hq with
    | node own' inside => exact .node ⟨own, own'⟩ fun e he => ih e he (inside e he)

variable {d e : Description}

theorem mem_inside_of_item {ds : List Description} (h : d.items = some ds) (he : e ∈ ds) :
    e ∈ d.inside :=
  List.mem_append_left _ (mem_directlyBelow.2 (.inl ⟨ds, h, he⟩))

theorem mem_inside_of_orderedItem {ds : List Description} (h : d.orderedItems = some ds)
    (he : e ∈ ds) : e ∈ d.inside :=
  List.mem_append_left _ (mem_directlyBelow.2 (.inr (.inl ⟨ds, h, he⟩)))

theorem mem_inside_of_child {cs : List (String × Description)} {key : String}
    (h : d.children = some cs) (he : (key, e) ∈ cs) : e ∈ d.inside :=
  List.mem_append_left _ (mem_directlyBelow.2 (.inr (.inr (.inl ⟨cs, key, h, he⟩))))

theorem mem_inside_of_rule {ps : List (PatternRule Description)} {p : PatternRule Description}
    (h : d.patterns = some ps) (hp : p ∈ ps) : p.rule ∈ d.inside :=
  List.mem_append_left _ (mem_directlyBelow.2 (.inr (.inr (.inr (.inl ⟨ps, p, h, hp, rfl⟩)))))

theorem mem_inside_of_key {ps : List (PatternRule Description)} {p : PatternRule Description}
    (h : d.patterns = some ps) (hp : p ∈ ps) (he : e ∈ p.schema) : e ∈ d.inside := by
  refine List.mem_append_right _ (List.mem_filterMap.2 ⟨p, ?_, he⟩)
  rw [h]
  exact hp

theorem mem_inside_of_branch {bs : List (Alternative Description)} (h : d.alternatives = some bs)
    (he : .schema e ∈ bs) : e ∈ d.inside :=
  List.mem_append_left _ (mem_directlyBelow.2 (.inr (.inr (.inr (.inr ⟨bs, h, he⟩)))))

/-- Where a description stands that is inside a node. -/
theorem exists_of_mem_inside (h : e ∈ d.inside) :
    (∃ ds, d.items = some ds ∧ e ∈ ds) ∨ (∃ ds, d.orderedItems = some ds ∧ e ∈ ds) ∨
      (∃ cs key, d.children = some cs ∧ (key, e) ∈ cs) ∨
      (∃ ps p, d.patterns = some ps ∧ p ∈ ps ∧ (p.rule = e ∨ e ∈ p.schema)) ∨
      ∃ bs, d.alternatives = some bs ∧ .schema e ∈ bs := by
  rcases List.mem_append.1 h with h | h
  · rcases mem_directlyBelow.1 h with h | h | h | ⟨ps, p, hps, hp, hrule⟩ | h
    · exact .inl h
    · exact .inr (.inl h)
    · exact .inr (.inr (.inl h))
    · exact .inr (.inr (.inr (.inl ⟨ps, p, hps, hp, .inl hrule⟩)))
    · exact .inr (.inr (.inr (.inr h)))
  · obtain ⟨p, hp, hkey⟩ := List.mem_filterMap.1 h
    cases hps : d.patterns with
    | none =>
      rw [hps] at hp
      exact absurd hp List.not_mem_nil
    | some ps =>
      rw [hps] at hp
      exact .inr (.inr (.inr (.inl ⟨ps, p, rfl, hp, .inr hkey⟩)))

/-! ## What a description is written as -/

end Description

theorem Members.unlessEmpty_eq {α : Type} (name : String) (encode : α → Json) (xs : List α) :
    unlessEmpty name encode xs =
      ((if xs.isEmpty then none else some (Json.array (xs.map encode))).map fun v =>
        (name, v)).toList := by
  unfold unlessEmpty
  split <;> rfl

/-- What a branch is written as. -/
def Alternative.toJson : Alternative Description → Json
  | schema d => d.toJson
  | conditional c => c.toJson

namespace Description

theorem encodeItems_eq_map : ∀ ds : List Description,
    encodeItems Members.ofList ds = ds.map toJson
  | [] => rfl
  | d :: ds => congrArg (d.toJson :: ·) (encodeItems_eq_map ds)

theorem encodeChildren_eq_map : ∀ cs : List (String × Description),
    encodeChildren Members.ofList cs = cs.map fun c => (c.1, c.2.toJson)
  | [] => rfl
  | (key, d) :: cs => congrArg ((key, d.toJson) :: ·) (encodeChildren_eq_map cs)

theorem encodePatterns_eq_map : ∀ ps : List (PatternRule Description),
    encodePatterns Members.ofList ps = ps.map (PatternRule.toJson toJson)
  | [] => rfl
  | ⟨regex, schema, rule⟩ :: ps => by
    rw [encodePatterns, encodePatterns_eq_map ps, List.map_cons]
    cases regex <;> cases schema <;> rfl

theorem encodeBranches_eq_map : ∀ bs : List (Alternative Description),
    encodeBranches Members.ofList bs = bs.map Alternative.toJson
  | [] => rfl
  | .schema d :: bs => congrArg (d.toJson :: ·) (encodeBranches_eq_map bs)
  | .conditional c :: bs => congrArg (c.toJson :: ·) (encodeBranches_eq_map bs)

theorem encodeItems?_eq (name : String) (ds? : Option (List Description)) :
    encodeItems? Members.ofList name ds? =
      Members.optional name (fun ds => .array (ds.map toJson)) ds? := by
  cases ds? with
  | none => rfl
  | some ds => rw [encodeItems?, encodeItems_eq_map, Members.optional]

theorem encodeChildren?_eq (cs? : Option (List (String × Description))) :
    encodeChildren? Members.ofList cs? = Members.optional "children"
      (fun cs => .object (Members.ofList (cs.map fun c => (c.1, c.2.toJson)))) cs? := by
  cases cs? with
  | none => rfl
  | some cs => rw [encodeChildren?, encodeChildren_eq_map, Members.optional]

theorem encodePatterns?_eq (ps? : Option (List (PatternRule Description))) :
    encodePatterns? Members.ofList ps? =
      Members.optional "patterns" (fun ps => .array (ps.map (PatternRule.toJson toJson))) ps? := by
  cases ps? with
  | none => rfl
  | some ps => rw [encodePatterns?, encodePatterns_eq_map, Members.optional]

theorem encodeBranches?_eq (bs? : Option (List (Alternative Description))) :
    encodeBranches? Members.ofList bs? =
      Members.optional "alternatives" (fun bs => .array (bs.map Alternative.toJson)) bs? := by
  cases bs? with
  | none => rfl
  | some bs => rw [encodeBranches?, encodeBranches_eq_map, Members.optional]

/-- What a field is written as, if it is. -/
def part (d : Description) : Field → Option Json
  | .typeName => some (.string d.typeName)
  | .rules => if d.rules.isEmpty then none else some (.array (d.rules.map Rule.toJson))
  | .flags => some (.object (Members.ofList d.flags.toMembers))
  | .valids => if d.valids.isEmpty then none else some (.array (d.valids.map id))
  | .metas => d.metas.map fun fs => .array (fs.map .object)
  | .notes => d.notes.map Json.ofStrings
  | .tags => d.tags.map Json.ofStrings
  | .unit => d.unit.map .string
  | .examples => d.examples.map .array
  | .label => d.label.map .string
  | .description => d.description.map .string
  | .items => d.items.map fun ds => .array (ds.map toJson)
  | .orderedItems => d.orderedItems.map fun ds => .array (ds.map toJson)
  | .children =>
    d.children.map fun cs => .object (Members.ofList (cs.map fun c => (c.1, c.2.toJson)))
  | .patterns => d.patterns.map fun ps => .array (ps.map (PatternRule.toJson toJson))
  | .dependencies => d.dependencies.map fun ds => .array (ds.map Dependency.toJson)
  | .alternatives => d.alternatives.map fun bs => .array (bs.map Alternative.toJson)
  | .truthy => d.truthy.map .array
  | .falsy => d.falsy.map .array

/-- **A description is written field by field**, those left out that say nothing. -/
theorem toJson_eq (d : Description) :
    d.toJson = .object (Members.present (Field.all.map fun f => (f.name, d.part f))) := by
  obtain ⟨t, items, orderedItems, children, patterns, alternatives⟩ := d
  rw [toJson, encode, encodeItems?_eq, encodeItems?_eq, encodeChildren?_eq, encodePatterns?_eq,
    encodeBranches?_eq]
  simp only [Traits.leadingMembers, Traits.dependencyMembers, Traits.trailingMembers,
    Members.unlessEmpty_eq, Members.optional_eq, Field.all, List.map_cons, List.map_nil,
    Members.present_cons, Members.present_nil, List.append_assoc, List.append_nil]
  rfl

theorem Field.ofName?_name (f : Field) : ofName? f.name = some f := by
  cases f <;> decide

theorem Field.mem_all (f : Field) : f ∈ all := by
  cases f <;> decide

theorem mem_members_of_part {d : Description} {f : Field} {v : Json} (h : d.part f = some v) :
    (f.name, v) ∈ Members.present (Field.all.map fun f => (f.name, d.part f)) :=
  List.mem_filterMap.2 ⟨(f.name, some v), List.mem_map.2 ⟨f, f.mem_all, by rw [h]⟩, rfl⟩

theorem toJson_ne_null (d : Description) : d.toJson ≠ .null := by
  rw [toJson_eq]
  simp

/-! ## What reading needs -/

/-- The values that a node holds repeat no name, as no value does. -/
structure Distinct (d : Description) : Prop where
  rules : ∀ r ∈ d.rules, r.arg.Distinct
  flags : d.flags.Distinct
  valids : ∀ v ∈ d.valids, v.Distinct
  metas : ∀ fs ∈ d.metas, ∀ ms ∈ fs, (Json.object ms).Distinct
  examples : ∀ vs ∈ d.examples, ∀ v ∈ vs, v.Distinct
  truthy : ∀ vs ∈ d.truthy, ∀ v ∈ vs, v.Distinct
  falsy : ∀ vs ∈ d.falsy, ∀ v ∈ vs, v.Distinct
  conditionals : ∀ bs ∈ d.alternatives, ∀ c, .conditional c ∈ bs → c.Distinct

/-- **A node as a value describes it**: a key stands for one child, a flag without a meaning does not
have the name of one with a meaning, and a condition holds no null. -/
structure Regular (d : Description) : Prop where
  children : ∀ cs ∈ d.children, (cs.map Prod.fst).Nodup
  flags : d.flags.Regular
  conditionals : ∀ bs ∈ d.alternatives, ∀ c, .conditional c ∈ bs → c.Regular

/-- A description without repeated names in its values, as a value describes it. -/
def Readable (d : Description) : Prop := d.All fun e => e.Distinct ∧ e.Regular

/-- Every condition holds something. -/
def Decided (d : Description) : Prop :=
  ∀ bs ∈ d.alternatives, ∀ c, .conditional c ∈ bs → c.Decided

/-! ## Reading a node -/

def copy (d : Description) : Field → Description → Description
  | .typeName, b => { b with typeName := d.typeName }
  | .rules, b => { b with rules := d.rules }
  | .flags, b => { b with flags := d.flags }
  | .valids, b => { b with valids := d.valids }
  | .metas, b => { b with metas := d.metas }
  | .notes, b => { b with notes := d.notes }
  | .tags, b => { b with tags := d.tags }
  | .unit, b => { b with unit := d.unit }
  | .examples, b => { b with examples := d.examples }
  | .label, b => { b with label := d.label }
  | .description, b => { b with description := d.description }
  | .items, b => { b with items := d.items }
  | .orderedItems, b => { b with orderedItems := d.orderedItems }
  | .children, b => { b with children := d.children }
  | .patterns, b => { b with patterns := d.patterns }
  | .dependencies, b => { b with dependencies := d.dependencies }
  | .alternatives, b => { b with alternatives := d.alternatives }
  | .truthy, b => { b with truthy := d.truthy }
  | .falsy, b => { b with falsy := d.falsy }

theorem copy_all (d : Description) : Field.all.foldl (fun b f => d.copy f b) {} = d := by
  cases d
  dsimp only [Field.all, List.foldl_cons, List.foldl_nil, copy]

theorem copy_comm (d : Description) (f g : Field) (b : Description) :
    d.copy f (d.copy g b) = d.copy g (d.copy f b) := by
  cases f <;> cases g <;> rfl

/-- What is not written is the default. -/
theorem copy_absent {d : Description} {f : Field} (h : d.part f = none) : d.copy f {} = {} := by
  cases f with
  | typeName | flags => cases h
  | rules | valids =>
    rw [part] at h
    split at h <;> cases h
    rename_i hempty
    rw [copy, List.isEmpty_iff.1 hempty]
  | metas | notes | tags | unit | examples | label | description | items | orderedItems | children
  | patterns | dependencies | alternatives | truthy | falsy =>
    rw [copy, Option.map_eq_none_iff.1 h]

theorem names_children {cs : List (String × Description)} (h : (cs.map Prod.fst).Nodup) :
    (Members.names (cs.map fun c => (c.1, c.2.toJson))).Nodup := by
  rw [Members.names, List.map_map]
  exact h

/-- Children under distinct keys are written under these keys. -/
theorem part_children {d : Description} (hr : d.Regular) {cs : List (String × Description)}
    (h : d.children = some cs) :
    d.part .children = some (.object (cs.map fun c => (c.1, c.2.toJson))) := by
  rw [part, h, Option.map_some, Members.ofList_of_nodup (names_children (hr.children cs h))]

variable {below : Medium → Source → Decoded Description}

theorem values_ofJson {vs? : Option (List Json)} {v : Json} (hv : vs?.map .array = some v)
    (h : ∀ vs ∈ vs?, ∀ w ∈ vs, w.Distinct) : values .value (Source.ofJson v) = .ok vs? := by
  refine Decode.optional_ofJson hv (by simp) fun vs hvs => ?_
  have hread : Decode.sequence .value Decode.json (Source.ofJson (.array (vs.map id))) = .ok vs :=
    Decode.sequence_ofJson fun w hw => Decode.json_ofJson (h vs hvs w hw)
  rwa [List.map_id] at hread

theorem texts_ofJson {xs? : Option (List String)} {v : Json} (hv : xs?.map Json.ofStrings = some v) :
    strings .value (Source.ofJson v) = .ok xs? :=
  Decode.optional_ofJson hv (by simp [Json.ofStrings]) fun xs _ => Decode.strings_ofJson xs

theorem text_ofJson {x? : Option String} {v : Json} (hv : x?.map .string = some v) :
    Decode.optional Decode.string (Source.ofJson v) = .ok x? :=
  Decode.optional_ofJson hv (by simp) fun _ _ => rfl

theorem items_ofJson {ds? : Option (List Description)} {v : Json}
    (hv : (ds?.map fun ds => .array (ds.map toJson)) = some v)
    (h : ∀ ds ∈ ds?, ∀ e ∈ ds, below .value (Source.ofJson e.toJson) = .ok e) :
    Decode.optional (Decode.sequence .value below) (Source.ofJson v) = .ok ds? :=
  Decode.optional_ofJson hv (by simp) fun ds hds => Decode.sequence_ofJson (h ds hds)

/-- **What a field is written as is read as the field**, if that is so of the descriptions inside. -/
theorem read_part {d : Description} (hd : d.Distinct) (hr : d.Regular) (hc : d.Decided)
    (hbelow : ∀ e ∈ d.inside, below .value (Source.ofJson e.toJson) = .ok e)
    (hinside : ∀ e ∈ d.inside, e.toJson.Distinct) (f : Field) (v : Json) (hv : d.part f = some v) :
    (record below).read .value f (Source.ofJson v) = .ok (d.copy f) := by
  cases f with
  | typeName =>
    cases hv
    rfl
  | rules =>
    rw [part] at hv
    split at hv <;> cases hv
    refine Decoded.bind_of_ok (Decode.sequence_ofJson fun r hmem => ?_) _
    rw [Rule.toJson_eq]
    exact (Rule.written (hd.rules r hmem)).decode_ofJson
  | flags =>
    cases hv
    exact Decoded.bind_of_ok (Flags.decode_ofJson hd.flags hr.flags) _
  | valids =>
    rw [part] at hv
    split at hv <;> cases hv
    exact Decoded.bind_of_ok
      (Decode.sequence_ofJson fun v hmem => Decode.json_ofJson (hd.valids v hmem)) _
  | metas =>
    refine Decoded.bind_of_ok (Decode.optional_ofJson hv (by simp) fun fs hfs => ?_) _
    exact Decode.sequence_ofJson fun ms hms => Decode.members_ofJson (hd.metas fs hfs ms hms)
  | notes | tags => exact Decoded.bind_of_ok (texts_ofJson hv) _
  | unit | label | description => exact Decoded.bind_of_ok (text_ofJson hv) _
  | examples => exact Decoded.bind_of_ok (values_ofJson hv hd.examples) _
  | truthy => exact Decoded.bind_of_ok (values_ofJson hv hd.truthy) _
  | falsy => exact Decoded.bind_of_ok (values_ofJson hv hd.falsy) _
  | items =>
    exact Decoded.bind_of_ok
      (items_ofJson hv fun ds hds e he => hbelow e (mem_inside_of_item hds he)) _
  | orderedItems =>
    exact Decoded.bind_of_ok
      (items_ofJson hv fun ds hds e he => hbelow e (mem_inside_of_orderedItem hds he)) _
  | children =>
    refine Decoded.bind_of_ok (Decode.optional_ofJson hv (by simp) fun cs hcs => ?_) _
    rw [Members.ofList_of_nodup (names_children (hr.children cs hcs))]
    exact Decode.mapping_ofJson childrenTitle fun c hmem =>
      hbelow c.2 (mem_inside_of_child hcs hmem)
  | patterns =>
    refine Decoded.bind_of_ok (Decode.optional_ofJson hv (by simp) fun ps hps => ?_) _
    refine Decode.sequence_ofJson fun p hp => ?_
    exact (PatternRule.written toJson_ne_null
      (fun e he => hbelow e (mem_inside_of_key hps hp he))
      (hbelow p.rule (mem_inside_of_rule hps hp))).decode_ofJson
  | dependencies =>
    refine Decoded.bind_of_ok (Decode.optional_ofJson hv (by simp) fun ds _ => ?_) _
    refine Decode.sequence_ofJson fun x _ => ?_
    rw [Dependency.toJson_eq]
    exact (Dependency.written x).decode_ofJson
  | alternatives =>
    refine Decoded.bind_of_ok (Decode.optional_ofJson hv (by simp) fun bs hbs => ?_) _
    refine Decode.sequence_ofJson fun b hb => ?_
    cases b with
    | schema e =>
      have he := mem_inside_of_branch hbs hb
      refine (Decoded.bind_of_ok (Decode.json_ofJson (hinside e he)) _).trans ?_
      have hread := hbelow e he
      rw [toJson_eq] at hread ⊢
      exact Alternative.ofJson_of_type rfl hread
    | conditional c =>
      have hread := Decode.json_ofJson (Conditional.distinct_toJson (hd.conditionals bs hbs c hb))
      exact (Decoded.bind_of_ok hread _).trans
        (Alternative.ofJson_conditional (hr.conditionals bs hbs c hb) (hc bs hbs c hb))

/-- **A node is written field by field and read as it was**, if that is so of the descriptions
inside. -/
theorem written {d : Description} (hd : d.Distinct) (hr : d.Regular) (hc : d.Decided)
    (hbelow : ∀ e ∈ d.inside, below .value (Source.ofJson e.toJson) = .ok e)
    (hinside : ∀ e ∈ d.inside, e.toJson.Distinct) :
    (record below).Written {} d d.part d.copy where
  listed := Field.mem_all
  nodup := (by decide : Field.all.Nodup)
  known := Field.ofName?_name
  required f hf := by
    have hf : f = .typeName := of_decide_eq_true hf
    rw [hf]
    rfl
  read := read_part hd hr hc hbelow hinside
  absent _ := copy_absent
  comm := d.copy_comm
  whole := d.copy_all

/-! ## Reading a tree -/

theorem distinct_arrayOf {α : Type} {write : α → Json} {xs : List α}
    (h : ∀ x ∈ xs, (write x).Distinct) : (Json.array (xs.map write)).Distinct :=
  .array (List.forall_mem_map.2 h)

/-- What a field is written as repeats no name, if that is so of the descriptions inside. -/
theorem distinct_part {d : Description} (hd : d.Distinct) (hr : d.Regular)
    (hinside : ∀ e ∈ d.inside, e.toJson.Distinct) {f : Field} {v : Json} (hv : d.part f = some v) :
    v.Distinct := by
  cases f with
  | typeName =>
    cases hv
    exact .string _
  | rules =>
    rw [part] at hv
    split at hv <;> cases hv
    exact distinct_arrayOf fun r hmem => Rule.distinct_toJson (hd.rules r hmem)
  | flags =>
    cases hv
    have hflags := Flags.distinct_toMembers hd.flags hr.flags
    rwa [Members.ofList_of_nodup (Json.distinct_object_iff.1 hflags).1]
  | valids =>
    rw [part] at hv
    split at hv <;> cases hv
    exact distinct_arrayOf hd.valids
  | metas =>
    obtain ⟨fs, hfs, rfl⟩ := Option.map_eq_some_iff.1 hv
    exact distinct_arrayOf (hd.metas fs hfs)
  | notes | tags =>
    obtain ⟨xs, -, rfl⟩ := Option.map_eq_some_iff.1 hv
    exact Json.distinct_ofStrings xs
  | unit | label | description =>
    obtain ⟨s, -, rfl⟩ := Option.map_eq_some_iff.1 hv
    exact .string s
  | examples =>
    obtain ⟨vs, hvs, rfl⟩ := Option.map_eq_some_iff.1 hv
    exact .array (hd.examples vs hvs)
  | truthy =>
    obtain ⟨vs, hvs, rfl⟩ := Option.map_eq_some_iff.1 hv
    exact .array (hd.truthy vs hvs)
  | falsy =>
    obtain ⟨vs, hvs, rfl⟩ := Option.map_eq_some_iff.1 hv
    exact .array (hd.falsy vs hvs)
  | items =>
    obtain ⟨ds, hds, rfl⟩ := Option.map_eq_some_iff.1 hv
    exact distinct_arrayOf fun e he => hinside e (mem_inside_of_item hds he)
  | orderedItems =>
    obtain ⟨ds, hds, rfl⟩ := Option.map_eq_some_iff.1 hv
    exact distinct_arrayOf fun e he => hinside e (mem_inside_of_orderedItem hds he)
  | children =>
    obtain ⟨cs, hcs, rfl⟩ := Option.map_eq_some_iff.1 hv
    have hnodup := names_children (hr.children cs hcs)
    rw [Members.ofList_of_nodup hnodup]
    refine .object hnodup (List.forall_mem_map.2 fun c hmem => ?_)
    exact hinside c.2 (mem_inside_of_child hcs hmem)
  | patterns =>
    obtain ⟨ps, hps, rfl⟩ := Option.map_eq_some_iff.1 hv
    exact distinct_arrayOf fun p hp => PatternRule.distinct_toJson
      (fun e he => hinside e (mem_inside_of_key hps hp he))
      (hinside p.rule (mem_inside_of_rule hps hp))
  | dependencies =>
    obtain ⟨ds, -, rfl⟩ := Option.map_eq_some_iff.1 hv
    exact distinct_arrayOf fun x _ => x.distinct_toJson
  | alternatives =>
    obtain ⟨bs, hbs, rfl⟩ := Option.map_eq_some_iff.1 hv
    refine distinct_arrayOf fun b hb => ?_
    cases b with
    | schema e => exact hinside e (mem_inside_of_branch hbs hb)
    | conditional c => exact Conditional.distinct_toJson (hd.conditionals bs hbs c hb)

theorem Readable.distinct_toJson {d : Description} (h : d.Readable) : d.toJson.Distinct := by
  induction h with
  | @node d own _ ih =>
    rw [toJson_eq]
    refine Json.distinct_present (by decide : (Field.all.map Field.name).Nodup) fun name v hmem => ?_
    obtain ⟨f, -, heq⟩ := List.mem_map.1 hmem
    exact distinct_part own.1 own.2 ih (Prod.mk.inj heq).2

theorem depth_part_lt {d : Description} {f : Field} {v : Json} (h : d.part f = some v) :
    v.depth < d.toJson.depth := by
  rw [toJson_eq]
  exact Json.depth_lt_object (mem_members_of_part h)

theorem depth_item_lt {d : Description} {f : Field} {vs : List Json} {v : Json}
    (h : d.part f = some (.array vs)) (hv : v ∈ vs) : v.depth < d.toJson.depth :=
  Nat.lt_trans (Json.depth_lt_array hv) (depth_part_lt h)

/-- **What is inside a description is written inside it**, so it is less deep. -/
theorem depth_lt_of_inside {d e : Description} (hr : d.Regular) (he : e ∈ d.inside) :
    e.toJson.depth < d.toJson.depth := by
  have hpattern : ∀ {ps p}, d.patterns = some ps → p ∈ ps →
      (p.toJson toJson).depth < d.toJson.depth := fun hps hp =>
    depth_item_lt (f := .patterns) (by rw [part, hps]; rfl) (List.mem_map_of_mem hp)
  rcases exists_of_mem_inside he with ⟨ds, hds, hmem⟩ | ⟨ds, hds, hmem⟩ | ⟨cs, key, hcs, hmem⟩ |
    ⟨ps, p, hps, hp, rfl | hkey⟩ | ⟨bs, hbs, hmem⟩
  · exact depth_item_lt (f := .items) (by rw [part, hds]; rfl) (List.mem_map_of_mem hmem)
  · exact depth_item_lt (f := .orderedItems) (by rw [part, hds]; rfl) (List.mem_map_of_mem hmem)
  · exact Nat.lt_trans (Json.depth_lt_object (List.mem_map.2 ⟨(key, e), hmem, rfl⟩))
      (depth_part_lt (part_children hr hcs))
  · exact Nat.lt_trans (Json.depth_lt_object (p.mem_members_rule toJson)) (hpattern hps hp)
  · exact Nat.lt_trans (Json.depth_lt_object (PatternRule.mem_members_schema toJson hkey))
      (hpattern hps hp)
  · exact depth_item_lt (f := .alternatives) (by rw [part, hbs]; rfl)
      (List.mem_map.2 ⟨Alternative.schema e, hmem, rfl⟩)

theorem Readable.decode_toJson {d : Description} (h : d.Readable) :
    d.All Decided → ∀ levels, d.toJson.depth < levels →
      decode levels .value (Source.ofJson d.toJson) = .ok d := by
  induction h with
  | @node d own inside ih =>
    rintro ⟨hc, hdecided⟩ levels hlevels
    cases levels with
    | zero => exact absurd hlevels (Nat.not_lt_zero _)
    | succ levels =>
      have hbelow : ∀ e ∈ d.inside, decode levels .value (Source.ofJson e.toJson) = .ok e :=
        fun e he => ih e he (hdecided e he) levels (by
          have := depth_lt_of_inside own.2 he
          omega)
      have hinside : ∀ e ∈ d.inside, e.toJson.Distinct :=
        fun e he => Readable.distinct_toJson (inside e he)
      have hread := (written own.1 own.2 hc hbelow hinside).decode_ofJson
      rw [toJson_eq]
      exact hread

/-- **A description is read back from what it is written as.**  The keys of children are distinct
everywhere inside it, flags without a meaning do not have the name of one with a meaning, and every
condition holds something, none of it an explicit null. -/
theorem ofJson_toJson {d : Description} (hvalues : d.All Distinct) (hregular : d.All Regular)
    (hdecided : d.All Decided) : ofJson d.toJson = .ok d :=
  Readable.decode_toJson (hvalues.and hregular) hdecided _ (Nat.lt_succ_self _)

/-- An object with children in an order of their own, one with an explicit null as its default and
a flag without a meaning, with a described key, and with a condition beside a branch. -/
theorem ofJson_toJson_nested :
    let flags : Flags := { default := some .null, other := [("cast", .string "text")] }
    let child := (ofType "string").withFlags flags
    let pattern : PatternRule Description := { schema := some (ofType "string"), rule := ofType "any" }
    let condition : Conditional := { reference := some (.string "x"), is := some (.bool true) }
    let d : Description :=
      { ((ofType "object").withChild "b" child).withChild "a" (ofType "number") with
        patterns := some [pattern]
        alternatives := some [.conditional condition, .schema (ofType "date")] }
    d.All Distinct ∧ d.All Regular ∧ d.All Decided ∧ ofJson d.toJson = .ok d := by
  intro flags child pattern condition d
  have hflags : ∀ f ∈ [{}, flags], f.Distinct ∧ f.Regular := by
    intro f hf
    simp only [List.mem_cons, List.not_mem_nil, or_false] at hf
    rcases hf with rfl | rfl
    · exact Flags.regular_bare
    · refine ⟨⟨fun v hv => ?_, .object (by decide) ?_⟩, ?_⟩
      · cases hv
        exact .null
      · exact List.forall_mem_singleton.2 (.string _)
      · exact List.forall_mem_singleton.2 (by decide)
  have hcondition : ∀ {P : Conditional → Prop}, P condition →
      ∀ bs ∈ d.alternatives, ∀ c, .conditional c ∈ bs → P c := by
    intro P hP bs hbs c hc
    cases hbs
    simp only [List.mem_cons, List.not_mem_nil, or_false, Alternative.conditional.injEq,
      reduceCtorEq] at hc
    rwa [hc]
  -- Inside the node stand descriptions that have a type and flags and nothing else.
  have hleaf : ∀ e ∈ d.inside, ∃ name, ∃ f ∈ [{}, flags], e = (ofType name).withFlags f := by
    intro e he
    have he : e ∈ [child, ofType "number", ofType "any", ofType "date", ofType "string"] := he
    simp only [List.mem_cons, List.not_mem_nil, or_false] at he
    rcases he with rfl | rfl | rfl | rfl | rfl
    · exact ⟨"string", flags, by simp, rfl⟩
    · exact ⟨"number", {}, by simp, rfl⟩
    · exact ⟨"any", {}, by simp, rfl⟩
    · exact ⟨"date", {}, by simp, rfl⟩
    · exact ⟨"string", {}, by simp, rfl⟩
  have hall : ∀ {P : Description → Prop}, P d →
      (∀ name, ∀ f ∈ [{}, flags], P ((ofType name).withFlags f)) → d.All P := by
    intro P hd h
    refine .node hd fun e he => ?_
    obtain ⟨name, f, hf, rfl⟩ := hleaf e he
    exact .node (h name f hf) fun e' he' => absurd he' List.not_mem_nil
  have hdistinct : d.All Distinct := by
    have hleaf : ∀ name, ∀ f ∈ [{}, flags], ((ofType name).withFlags f).Distinct := by
      intro name f hf
      constructor <;> simp [ofType, withFlags, (hflags f hf).1]
    have hd := hleaf "object" {} (by simp)
    refine hall { hd with conditionals := hcondition ?_ } hleaf
    intro key v hv
    simp only [Conditional.table, List.mem_cons, Prod.mk.injEq, List.not_mem_nil, or_false] at hv
    rcases hv with ⟨-, hv⟩ | ⟨-, hv⟩ | ⟨-, hv⟩ | ⟨-, hv⟩ <;> cases hv <;> constructor
  have hregular : d.All Regular := by
    refine hall ⟨fun cs hcs => ?_, (hflags {} (by simp)).2, hcondition ?_⟩ fun name f hf => by
      constructor <;> simp [ofType, withFlags, (hflags f hf).2]
    · cases hcs
      decide
    · intro key v hv
      simp only [Conditional.table, List.mem_cons, Prod.mk.injEq, List.not_mem_nil, or_false] at hv
      rcases hv with ⟨-, hv⟩ | ⟨-, hv⟩ | ⟨-, hv⟩ | ⟨-, hv⟩ <;> cases hv <;> simp
  have hdecided : d.All Decided :=
    hall (hcondition ⟨"ref", .string "x", List.mem_cons_self⟩) fun _ _ _ => by
      simp [Decided, ofType, withFlags]
  exact ⟨hdistinct, hregular, hdecided, ofJson_toJson hdistinct hregular hdecided⟩

end Description
end Schemata
