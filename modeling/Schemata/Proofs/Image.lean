import Schemata.Proofs.Decoded
import Schemata.Proofs.RoundTrip
/-!
# Image — what is read of a value can be written and read again

All that is read of a value is as a value describes it: a child is read once for each name, a flag is
only kept as one without a meaning when its name has none, and a null member of a condition is not
there (`Description.readable_of_ofJson`).  So what was read is read back from what it is written as,
with one exception (`Description.ofJson_toJson_of_read`).

A branch is taken for a condition when the name of a member is there, whatever its value, but only
values that are not null are kept.  When all of them are null the condition holds nothing, and it is
written as an object that is no branch any more (`Description.ofJson_toJson_undecided`).
-/
namespace Schemata

open Decoded (Gives gives_ok gives_error)

/-- A field that is set to what a reader gives keeps what the setting keeps. -/
theorem Decode.Reads.set {α β : Type} {P : α → Prop} {Q : β → Prop} {read : Source → Decoded β}
    {set : β → α → α} (h : Reads Q read) (hset : ∀ b, Q b → ∀ a, P a → P (set b a)) :
    Reads (fun change => ∀ a, P a → P (change a)) fun s => read s >>= fun b => .ok (set b) :=
  fun v hv => (h v hv).bind fun b hb => gives_ok (hset b hb)

/-- A field that may be set to anything. -/
theorem Decode.reads_set_any {α β : Type} {P : α → Prop} {read : Source → Decoded β}
    {set : β → α → α} (hset : ∀ b a, P a → P (set b a)) :
    Reads (fun change => ∀ a, P a → P (change a)) fun s => read s >>= fun b => .ok (set b) :=
  (reads_true read).set fun b _ => hset b

open Decode (Reads reads_json reads_optional reads_sequence reads_mapping reads_members
  reads_set_any)

/-! ## Parts -/

theorem Rule.reads : Reads (fun r => r.arg.Distinct) (record.decode .value { name := "" }) := by
  refine Record.Keeps.reads ⟨fun f => ?_, by simp [record]⟩ .null
  cases f with
  | name => exact reads_set_any fun _ _ h => h
  | arg => exact reads_json.set fun _ harg _ _ => harg

namespace Flags

theorem keep_other {f : Flags} {name : String} {v : Json} (h : f.Distinct ∧ f.Regular)
    (hname : Field.ofName? name = none) (hv : v.Distinct) :
    let g : Flags := { f with other := Members.insert f.other name v }
    g.Distinct ∧ g.Regular := by
  obtain ⟨⟨hdefault, hother⟩, hregular⟩ := h
  obtain ⟨hnodup, hmembers⟩ := Json.distinct_object_iff.1 hother
  refine ⟨⟨hdefault, .object (Members.nodup_insert hnodup name v) fun m hm => ?_⟩, fun n hn => ?_⟩
  · rcases Members.mem_insert hm with rfl | hm
    · exact hv
    · exact hmembers m hm
  · obtain ⟨m, hm, rfl⟩ := List.mem_map.1 hn
    rcases Members.mem_insert hm with rfl | hm
    · exact hname
    · exact hregular m.1 (List.mem_map_of_mem hm)

theorem reads : Reads (fun f => f.Distinct ∧ f.Regular) (record.decode .value {}) := by
  refine Record.Keeps.reads ⟨fun f => ?_, ?_⟩ regular_bare
  · cases f with
    | default =>
      refine reads_json.set fun v hv f hf => ⟨⟨fun w hw => ?_, hf.1.other⟩, hf.2⟩
      cases hw
      exact hv
    | presence | allowOnly | allowUnknown | sparse | encoding | timestamp | truncate | trim
    | normalize | insensitive | letterCase | byteAligned =>
      exact reads_set_any fun _ _ hf => ⟨⟨hf.1.default, hf.1.other⟩, hf.2⟩
  · intro keep hkeep name v f hname hv hf
    cases hkeep
    exact keep_other hf hname hv

end Flags

namespace Conditional

theorem part?_eq_some {ms : Members Json} {key : String} {v : Json} (h : part? ms key = some v) :
    (key, v) ∈ ms ∧ v ≠ .null := by
  obtain ⟨hget, hnull⟩ := Option.filter_eq_some_iff.1 h
  refine ⟨Members.mem_of_get?_eq_some hget, ?_⟩
  rintro rfl
  cases hnull

/-- Of members without repeated names, what a condition holds repeats none, and is not null. -/
theorem ofMembers_regular {ms : Members Json} (h : (Json.object ms).Distinct) :
    (ofMembers ms).Distinct ∧ (ofMembers ms).Regular := by
  have hms := (Json.distinct_object_iff.1 h).2
  have hpart : ∀ key v, (key, some v) ∈ (ofMembers ms).table → part? ms key = some v := by
    intro key v hv
    simp only [table, ofMembers, List.mem_cons, Prod.mk.injEq, List.not_mem_nil, or_false] at hv
    rcases hv with ⟨rfl, hv⟩ | ⟨rfl, hv⟩ | ⟨rfl, hv⟩ | ⟨rfl, hv⟩ <;> exact hv.symm
  constructor
  · intro key v hv
    exact hms _ (part?_eq_some (hpart key v hv)).1
  · intro key v hv
    exact (part?_eq_some (hpart key v hv)).2

end Conditional

namespace Alternative

variable {α : Type}

/-- A description has a property, and a condition is as a value describes it. -/
def Sound (P : α → Prop) : Alternative α → Prop
  | schema a => P a
  | conditional c => c.Distinct ∧ c.Regular

theorem gives_ofJson {P : α → Prop} {description : Source → Decoded α} (h : Reads P description)
    {v : Json} (hv : v.Distinct) : Gives (Sound P) (ofJson description v) := by
  cases v with
  | object ms =>
    change Gives _ (if Members.contains ms "type" then _
      else if Conditional.keys.any (Members.contains ms) then _ else _)
    split
    · exact (h _ hv).map fun _ ha => ha
    · split
      · exact gives_ok (Conditional.ofMembers_regular hv)
      · exact gives_error _
  | null | bool | number | string | array => exact gives_error _

/-- A description is read from a branch with a type. -/
theorem exists_of_ofJson_ok {description : Source → Decoded α} {v : Json} {b : Alternative α}
    (h : ofJson description v = .ok b) (htype : (v.field? "type").isSome = true) :
    ∃ a, description (Source.ofJson v) = .ok a := by
  cases v with
  | object ms =>
    have htype : Members.contains ms "type" = true := htype
    change (if Members.contains ms "type" then _ else _) = _ at h
    rw [if_pos htype] at h
    cases hx : description (Source.ofJson (.object ms)) with
    | ok a => exact ⟨a, rfl⟩
    | error e =>
      rw [hx] at h
      cases h
  | null | bool | number | string | array => cases htype

/-- A condition that is read holds something. -/
theorem decided_of_ofJson_ok {description : Source → Decoded α} {c : Conditional}
    {b : Alternative α} (h : ofJson description c.toJson = .ok b) : c.Decided := by
  rw [Conditional.toJson_eq] at h
  change (if Members.contains (Members.present c.table) "type" then _
    else if Conditional.keys.any (Members.contains (Members.present c.table)) then _ else _) = _ at h
  have hsome : ∀ key, Members.contains (Members.present c.table) key = true → c.Decided := by
    intro key hkey
    obtain ⟨v, hv⟩ := Option.isSome_iff_exists.1 hkey
    obtain ⟨⟨name, w?⟩, htable, hw⟩ := List.mem_filterMap.1 (Members.mem_of_get?_eq_some hv)
    obtain ⟨w, rfl, -⟩ := Option.map_eq_some_iff.1 hw
    exact ⟨name, w, htable⟩
  split at h
  · exact hsome "type" ‹_›
  · split at h
    · rename_i hany
      obtain ⟨key, -, hkey⟩ := List.any_eq_true.1 hany
      exact hsome key hkey
    · cases h

end Alternative

/-- A key pattern whose descriptions have a property. -/
def PatternRule.Sound {α : Type} (P : α → Prop) (p : PatternRule α) : Prop :=
  (∀ a ∈ p.schema, P a) ∧ P p.rule

theorem PatternRule.reads {α : Type} {P : α → Prop} {description : Medium → Source → Decoded α}
    (h : Reads P (description .value)) {bare : α} (hbare : P bare) :
    Reads (Sound P) ((record description).decode .value { rule := bare }) := by
  refine Record.Keeps.reads ⟨fun f => ?_, by simp [record]⟩ ⟨by simp, hbare⟩
  cases f with
  | regex => exact reads_set_any fun _ _ hp => hp
  | schema => exact (reads_optional h).set fun _ hschema _ hp => ⟨hschema, hp.2⟩
  | rule => exact h.set fun _ hrule _ hp => ⟨hp.1, hrule⟩

/-! ## Descriptions -/

namespace Description

/-- The fields of a description, as a value describes them. -/
structure Sound (d : Description) : Prop where
  rules : ∀ r ∈ d.rules, r.arg.Distinct
  flags : d.flags.Distinct ∧ d.flags.Regular
  valids : ∀ v ∈ d.valids, v.Distinct
  metas : ∀ fs ∈ d.metas, ∀ ms ∈ fs, (Json.object ms).Distinct
  examples : ∀ vs ∈ d.examples, ∀ v ∈ vs, v.Distinct
  truthy : ∀ vs ∈ d.truthy, ∀ v ∈ vs, v.Distinct
  falsy : ∀ vs ∈ d.falsy, ∀ v ∈ vs, v.Distinct
  items : ∀ ds ∈ d.items, ∀ e ∈ ds, e.Readable
  orderedItems : ∀ ds ∈ d.orderedItems, ∀ e ∈ ds, e.Readable
  children : ∀ cs ∈ d.children, (cs.map Prod.fst).Nodup ∧ ∀ c ∈ cs, c.2.Readable
  patterns : ∀ ps ∈ d.patterns, ∀ p ∈ ps, p.Sound Readable
  alternatives : ∀ bs ∈ d.alternatives, ∀ b ∈ bs, b.Sound Readable

theorem sound_bare : Sound {} := by
  constructor <;> simp [Flags.regular_bare]

theorem Sound.readable {d : Description} (h : d.Sound) : d.Readable := by
  refine .node ⟨⟨h.rules, h.flags.1, h.valids, h.metas, h.examples, h.truthy, h.falsy, ?_⟩,
    ⟨fun cs hcs => (h.children cs hcs).1, h.flags.2, ?_⟩⟩ fun e he => ?_
  · exact fun bs hbs c hc => (h.alternatives bs hbs _ hc).1
  · exact fun bs hbs c hc => (h.alternatives bs hbs _ hc).2
  · rcases exists_of_mem_inside he with ⟨ds, hds, hmem⟩ | ⟨ds, hds, hmem⟩ | ⟨cs, key, hcs, hmem⟩ |
      ⟨ps, p, hps, hp, rfl | hkey⟩ | ⟨bs, hbs, hmem⟩
    · exact h.items ds hds e hmem
    · exact h.orderedItems ds hds e hmem
    · exact (h.children cs hcs).2 _ hmem
    · exact (h.patterns ps hps p hp).2
    · exact (h.patterns ps hps p hp).1 e hkey
    · exact h.alternatives bs hbs _ hmem

variable {below : Medium → Source → Decoded Description}

theorem keeps_sound (hbelow : Reads Readable (below .value)) : (record below).Keeps Sound := by
  refine ⟨fun f => ?_, by simp [record]⟩
  cases f with
  | typeName | notes | tags | unit | label | description | dependencies =>
    exact reads_set_any fun _ _ h => { h with }
  | rules => exact (reads_sequence Rule.reads).set fun _ hrules _ h => { h with rules := hrules }
  | flags => exact Flags.reads.set fun _ hflags _ h => { h with flags := hflags }
  | valids => exact (reads_sequence reads_json).set fun _ hvs _ h => { h with valids := hvs }
  | metas =>
    exact (reads_optional (reads_sequence reads_members)).set fun _ hfs _ h => { h with metas := hfs }
  | examples =>
    exact (reads_optional (reads_sequence reads_json)).set fun _ hvs _ h =>
      { h with examples := hvs }
  | truthy =>
    exact (reads_optional (reads_sequence reads_json)).set fun _ hvs _ h => { h with truthy := hvs }
  | falsy =>
    exact (reads_optional (reads_sequence reads_json)).set fun _ hvs _ h => { h with falsy := hvs }
  | items =>
    exact (reads_optional (reads_sequence hbelow)).set fun _ hds _ h => { h with items := hds }
  | orderedItems =>
    exact (reads_optional (reads_sequence hbelow)).set fun _ hds _ h =>
      { h with orderedItems := hds }
  | children =>
    exact (reads_optional (reads_mapping childrenTitle hbelow)).set fun _ hcs _ h =>
      { h with children := hcs }
  | patterns =>
    have hpattern := PatternRule.reads hbelow sound_bare.readable
    exact (reads_optional (reads_sequence hpattern)).set fun _ hps _ h => { h with patterns := hps }
  | alternatives =>
    have hbranch : Reads (Alternative.Sound Readable) fun s =>
        Decode.json .value s >>= fun v => Alternative.ofJson (below .value) v :=
      fun v hv => (reads_json v hv).bind fun _ hw => Alternative.gives_ofJson hbelow hw
    exact (reads_optional (reads_sequence hbranch)).set fun _ hbs _ h =>
      { h with alternatives := hbs }

theorem reads_decode : ∀ levels, Reads Readable (decode levels .value)
  | 0 => fun _ _ => gives_error _
  | levels + 1 => fun v hv a ha =>
    ((keeps_sound (reads_decode levels)).reads sound_bare v hv a ha).readable

/-- **What is read of a value is as a value describes it.** -/
theorem readable_of_ofJson {v : Json} (hv : v.Distinct) {d : Description} (h : ofJson v = .ok d) :
    d.Readable :=
  reads_decode _ v hv d h

/-! ## Where reading again fails -/

/-- Of a node that is read, every field that is written is read. -/
theorem exists_read_of_decode_ok {d e : Description}
    (h : (record below).decode .value {} (Source.ofJson d.toJson) = .ok e) {f : Field} {v : Json}
    (hv : d.part f = some v) : ∃ set, (record below).read .value f (Source.ofJson v) = .ok set := by
  rw [toJson_eq] at h
  exact Record.exists_read_of_decode_ok h (mem_members_of_part hv) f.ofName?_name

open Decoded (exists_first_of_bind_ok)
open Decode (exists_of_optional_ok exists_of_sequence_ok exists_of_mapping_ok)

/-- Of a node that is read, every item of a list that is written was read. -/
theorem exists_item_of_decode_ok {d e : Description}
    (h : (record below).decode .value {} (Source.ofJson d.toJson) = .ok e) {f : Field}
    {α : Type} (item : Medium → Source → Decoded α)
    (hfield : ∀ s set, (record below).read .value f s = .ok set →
      ∃ as?, Decode.optional (Decode.sequence .value item) s = .ok as?)
    {vs : List Json} (hpart : d.part f = some (.array vs)) {v : Json} (hv : v ∈ vs) :
    ∃ a, item .value (Source.ofJson v) = .ok a := by
  obtain ⟨_, hset⟩ := exists_read_of_decode_ok h hpart
  obtain ⟨_, hread⟩ := hfield _ _ hset
  obtain ⟨_, hread⟩ := exists_of_optional_ok hread (by simp)
  exact exists_of_sequence_ok hread v hv

theorem exists_pattern_of_decode_ok {d e : Description}
    (h : (record below).decode .value {} (Source.ofJson d.toJson) = .ok e)
    {ps : List (PatternRule Description)} (hps : d.patterns = some ps)
    {p : PatternRule Description} (hp : p ∈ ps) :
    ∃ p', (PatternRule.record below).decode .value { rule := {} }
      (Source.ofJson (.object (p.members toJson))) = .ok p' := by
  refine exists_item_of_decode_ok h (f := .patterns)
    (fun m => (PatternRule.record below).decode m { rule := {} }) (fun s set hset => ?_)
    (by rw [part, hps]; rfl) (List.mem_map.2 ⟨p, hp, rfl⟩)
  exact exists_first_of_bind_ok hset

/-- Of a node that is read, every branch is read from the value that it is written as. -/
theorem exists_branch_of_decode_ok {d e : Description}
    (h : (record below).decode .value {} (Source.ofJson d.toJson) = .ok e)
    {bs : List (Alternative Description)} (hbs : d.alternatives = some bs)
    {b : Alternative Description} (hb : b ∈ bs) (hdistinct : b.toJson.Distinct) :
    ∃ b', Alternative.ofJson (below .value) b.toJson = .ok b' := by
  obtain ⟨b', hread⟩ := exists_item_of_decode_ok h (f := .alternatives)
    (fun m s => Decode.json m s >>= fun v => Alternative.ofJson (below .value) v)
    (fun s set hset => exists_first_of_bind_ok hset)
    (by rw [part, hbs]; rfl) (List.mem_map.2 ⟨b, hb, rfl⟩)
  rw [Decode.json_ofJson hdistinct] at hread
  exact ⟨b', hread⟩

/-- **Of a node that is read, every description inside is read.** -/
theorem exists_inside_of_decode_ok {d e : Description} (hr : d.Regular)
    (h : (record below).decode .value {} (Source.ofJson d.toJson) = .ok e)
    (hdistinct : ∀ i ∈ d.inside, i.toJson.Distinct) {i : Description} (hi : i ∈ d.inside) :
    ∃ i', below .value (Source.ofJson i.toJson) = .ok i' := by
  rcases exists_of_mem_inside hi with ⟨ds, hds, hmem⟩ | ⟨ds, hds, hmem⟩ | ⟨cs, key, hcs, hmem⟩ |
    ⟨ps, p, hps, hp, rfl | hkey⟩ | ⟨bs, hbs, hmem⟩
  · exact exists_item_of_decode_ok h (f := .items) below
      (fun s set hset => exists_first_of_bind_ok hset) (by rw [part, hds]; rfl)
      (List.mem_map_of_mem hmem)
  · exact exists_item_of_decode_ok h (f := .orderedItems) below
      (fun s set hset => exists_first_of_bind_ok hset) (by rw [part, hds]; rfl)
      (List.mem_map_of_mem hmem)
  · obtain ⟨_, hset⟩ := exists_read_of_decode_ok h (part_children hr hcs)
    obtain ⟨_, hread⟩ := exists_first_of_bind_ok hset
    obtain ⟨_, hread⟩ := exists_of_optional_ok hread (by simp)
    exact exists_of_mapping_ok hread (key, i.toJson) (List.mem_map.2 ⟨(key, i), hmem, rfl⟩)
  · obtain ⟨_, hread⟩ := exists_pattern_of_decode_ok h hps hp
    obtain ⟨_, hset⟩ := Record.exists_read_of_decode_ok hread (p.mem_members_rule toJson)
      (f := .rule) rfl
    exact exists_first_of_bind_ok hset
  · obtain ⟨_, hread⟩ := exists_pattern_of_decode_ok h hps hp
    obtain ⟨_, hset⟩ := Record.exists_read_of_decode_ok hread
      (PatternRule.mem_members_schema toJson hkey) (f := .schema) rfl
    obtain ⟨_, hread⟩ := exists_first_of_bind_ok hset
    exact exists_of_optional_ok hread i.toJson_ne_null
  · obtain ⟨b', hread⟩ := exists_branch_of_decode_ok h hbs hmem (hdistinct i hi)
    exact Alternative.exists_of_ofJson_ok hread (by rw [toJson_eq]; rfl)

/-- **A description that is read from what it is written as has conditions that hold something.** -/
theorem Readable.decided_of_decode_ok {d : Description} (h : d.Readable) :
    ∀ {levels e}, decode levels .value (Source.ofJson d.toJson) = .ok e → d.All Decided := by
  induction h with
  | @node d own inside ih =>
    intro levels e hread
    cases levels with
    | zero => cases hread
    | succ levels =>
      refine .node (fun bs hbs c hc => ?_) fun i hi => ?_
      · obtain ⟨_, hbranch⟩ := exists_branch_of_decode_ok hread hbs hc
          (Conditional.distinct_toJson (own.1.conditionals bs hbs c hc))
        exact Alternative.decided_of_ofJson_ok hbranch
      · obtain ⟨_, hinside⟩ := exists_inside_of_decode_ok own.2 hread
          (fun i hi => Readable.distinct_toJson (inside i hi)) hi
        exact ih i hi hinside

/-- **What was read of a value is read back from what it is written as, if and only if every
condition in it holds something.** -/
theorem ofJson_toJson_of_read {v : Json} (hv : v.Distinct) {d : Description}
    (h : ofJson v = .ok d) : ofJson d.toJson = .ok d ↔ d.All Decided :=
  have hd := readable_of_ofJson hv h
  ⟨hd.decided_of_decode_ok, fun hdecided => hd.decode_toJson hdecided _ (Nat.lt_succ_self _)⟩

/-- A value with a flag under its second name, set to what counts as true, with one without a meaning,
and with a null beside another member of a condition. -/
theorem ofJson_toJson_of_read_lenient :
    let v : Json := .object
      [("type", .string "alternatives"),
       ("flags", .object [("only", .string "yes"), ("cast", .null)]),
       ("alternatives", .array
         [.object [("ref", .null), ("is", .bool true)],
          .object [("type", .string "date"), ("children", .null)]])]
    let d : Description :=
      { typeName := "alternatives"
        flags := { allowOnly := true, other := [("cast", .null)] }
        alternatives := some [.conditional { is := some (.bool true) }, .schema (ofType "date")] }
    v.Distinct ∧ ofJson v = .ok d ∧ ofJson d.toJson = .ok d := by
  intro v d
  have hv : v.Distinct := by simp [v, Members.names]
  have hread : ofJson v = .ok d := rfl
  have hdecided : d.All Decided := by
    refine .node (fun bs hbs c hc => ?_) fun e he => ?_
    · cases hbs
      simp only [List.mem_cons, List.not_mem_nil, or_false, Alternative.conditional.injEq,
        reduceCtorEq] at hc
      rw [hc]
      exact ⟨"is", .bool true, by simp [Conditional.table]⟩
    · have he : e ∈ [ofType "date"] := he
      rw [List.mem_singleton.1 he]
      exact .node (by simp [Decided, ofType]) (fun _ h => absurd h List.not_mem_nil)
  exact ⟨hv, hread, (ofJson_toJson_of_read hv hread).2 hdecided⟩

/-- A condition with a null and nothing else is read as one that holds nothing, and that is written as
an object that is no branch. -/
theorem ofJson_toJson_undecided :
    let v : Json := .object
      [("type", .string "alternatives"), ("alternatives", .array [.object [("ref", .null)]])]
    let d : Description := { typeName := "alternatives", alternatives := some [.conditional {}] }
    v.Distinct ∧ ofJson v = .ok d ∧ ofJson d.toJson = .error .alternativeUndecided := by
  intro v d
  have hv : v.Distinct := by simp [v, Members.names]
  exact ⟨hv, rfl, rfl⟩

end Description
end Schemata
