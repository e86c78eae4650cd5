import Schemata.Decode.Record
import Schemata.Json.Reader
import Schemata.Proofs.Members
/-!
# Reading — what a value is read as

A value that repeats no name is read back as it is.  What lists and records are read as comes down to
what their parts are read as: a record whose fields are written under their names, those of them that
have a value, is read as the record (`Record.Written.decode_ofJson`).
-/
namespace Schemata

/-! ## Values without repeated names -/

/-- **No object repeats a name**, however deep in a value. -/
inductive Json.Distinct : Json → Prop where
  | null : Distinct .null
  | bool (b : Bool) : Distinct (.bool b)
  | number (x : Number) : Distinct (.number x)
  | string (s : String) : Distinct (.string s)
  | array {vs : List Json} (items : ∀ v ∈ vs, Distinct v) : Distinct (.array vs)
  | object {ms : Members Json} (nodup : (Members.names ms).Nodup)
    (members : ∀ m ∈ ms, Distinct m.2) : Distinct (.object ms)

attribute [simp] Json.Distinct.null Json.Distinct.bool Json.Distinct.number Json.Distinct.string

namespace Json

@[simp] theorem distinct_array_iff {vs : List Json} : (array vs).Distinct ↔ ∀ v ∈ vs, v.Distinct := by
  constructor
  · rintro ⟨⟩
    assumption
  · exact .array

@[simp] theorem distinct_object_iff {ms : Members Json} :
    (object ms).Distinct ↔ (Members.names ms).Nodup ∧ ∀ m ∈ ms, m.2.Distinct := by
  constructor
  · rintro ⟨⟩
    constructor <;> assumption
  · exact fun h => .object h.1 h.2

/-- Members under distinct names, of which some are there. -/
theorem distinct_present {table : List (String × Option Json)}
    (hnodup : (table.map Prod.fst).Nodup)
    (h : ∀ name v, (name, some v) ∈ table → v.Distinct) :
    (object (Members.present table)).Distinct := by
  refine .object (hnodup.sublist (Members.names_present_sublist table)) fun m hm => ?_
  obtain ⟨⟨name, v?⟩, htable, hv⟩ := List.mem_filterMap.1 hm
  obtain ⟨v, rfl, rfl⟩ := Option.map_eq_some_iff.1 hv
  exact h name v htable

theorem Distinct.append {ms ns : Members Json} (h : (Json.object ms).Distinct)
    (h' : (Json.object ns).Distinct) (hdisjoint : ∀ name ∈ Members.names ms, name ∉ Members.names ns) :
    (Json.object (ms ++ ns)).Distinct := by
  rw [distinct_object_iff] at h h' ⊢
  constructor
  · rw [Members.names, List.map_append]
    refine List.nodup_append.2 ⟨h.1, h'.1, ?_⟩
    rintro name hname _ hother rfl
    exact hdisjoint name hname hother
  · exact fun m hm => (List.mem_append.1 hm).elim (h.2 m) (h'.2 m)

end Json

/-! ## Media that admit a value -/

namespace Json

theorem depthItems_le_iff {n : Nat} : ∀ {vs : List Json},
    depthItems vs ≤ n ↔ ∀ v ∈ vs, v.depth ≤ n
  | [] => ⟨fun _ => List.forall_mem_nil _, fun _ => Nat.zero_le n⟩
  | v :: vs => by rw [depthItems, Nat.max_le, depthItems_le_iff, List.forall_mem_cons]

theorem depthMembers_le_iff {n : Nat} : ∀ {ms : Members Json},
    depthMembers ms ≤ n ↔ ∀ m ∈ ms, m.2.depth ≤ n
  | [] => ⟨fun _ => List.forall_mem_nil _, fun _ => Nat.zero_le n⟩
  | (name, v) :: ms => by rw [depthMembers, Nat.max_le, depthMembers_le_iff, List.forall_mem_cons]

theorem depth_lt_array {vs : List Json} {v : Json} (h : v ∈ vs) : v.depth < (array vs).depth :=
  Nat.lt_succ_of_le (depthItems_le_iff.1 (Nat.le_refl _) v h)

theorem depth_lt_object {ms : Members Json} {name : String} {v : Json} (h : (name, v) ∈ ms) :
    v.depth < (object ms).depth :=
  Nat.lt_succ_of_le (depthMembers_le_iff.1 (Nat.le_refl _) (name, v) h)

end Json

namespace Medium

/-- **A value that may be gone through**: a text has levels enough for it. -/
def Admits : Medium → Json → Prop
  | value, _ => True
  | text levels, v => v.depth ≤ levels

/-- A medium admits a list if it can be entered and then admits its items. -/
theorem admits_array_iff {vs : List Json} : ∀ {m : Medium},
    m.Admits (.array vs) ↔ ∃ inner, m.enter = .ok inner ∧ ∀ v ∈ vs, inner.Admits v
  | value => by simp [Admits, enter]
  | text 0 => by simp [Admits, enter, Json.depth]
  | text (levels + 1) => by simp [Admits, enter, Json.depth, Json.depthItems_le_iff]

theorem admits_object_iff {ms : Members Json} : ∀ {m : Medium},
    m.Admits (.object ms) ↔ ∃ inner, m.enter = .ok inner ∧ ∀ x ∈ ms, inner.Admits x.2
  | value => by simp [Admits, enter]
  | text 0 => by simp [Admits, enter, Json.depth]
  | text (levels + 1) => by simp [Admits, enter, Json.depth, Json.depthMembers_le_iff]

end Medium

namespace Source

variable {medium : Medium}

theorem toItems_ofItems : ∀ {vs : List Json},
    (∀ v ∈ vs, (ofJson v).toJson medium = .ok v) → toItems medium (ofItems vs) = .ok vs
  | [], _ => rfl
  | v :: vs, h => by
    rw [List.forall_mem_cons] at h
    rw [ofItems, toItems, h.1, toItems_ofItems h.2]
    rfl

theorem toMembers_ofMembers : ∀ (before : Members Json) {ms : Members Json},
    (∀ m ∈ ms, (ofJson m.2).toJson medium = .ok m.2) →
      toMembers medium before (ofMembers ms) = .ok (Members.insertAll before ms)
  | _, [], _ => rfl
  | before, (name, v) :: ms, h => by
    rw [List.forall_mem_cons] at h
    rw [ofMembers, toMembers, h.1]
    exact toMembers_ofMembers (Members.insert before name v) h.2

/-- **A value without repeated names is read back as it is.** -/
theorem toJson_of_admits {v : Json} (h : v.Distinct) : ∀ {medium : Medium}, medium.Admits v →
    (ofJson v).toJson medium = .ok v := by
  induction h with
  | null | bool | number | string => exact fun _ => rfl
  | array _ ih =>
    intro medium hadmits
    obtain ⟨inner, henter, hitems⟩ := Medium.admits_array_iff.1 hadmits
    rw [ofJson, toJson, henter]
    change (do let items ← toItems inner _; _) = _
    rw [toItems_ofItems fun v hv => ih v hv (hitems v hv)]
    rfl
  | object hnodup _ ih =>
    intro medium hadmits
    obtain ⟨inner, henter, hmembers⟩ := Medium.admits_object_iff.1 hadmits
    rw [ofJson, toJson, henter]
    change (do let members ← toMembers inner [] _; _) = _
    rw [toMembers_ofMembers [] fun m hm => ih m hm (hmembers m hm)]
    exact congrArg (fun ms => Except.ok (Json.object ms)) (Members.ofList_of_nodup hnodup)

theorem ofItems_eq_map : ∀ vs : List Json, ofItems vs = vs.map ofJson
  | [] => rfl
  | v :: vs => congrArg (ofJson v :: ·) (ofItems_eq_map vs)

theorem ofMembers_eq_map : ∀ ms : Members Json,
    ofMembers ms = ms.map fun m => (.ok m.1, ofJson m.2)
  | [] => rfl
  | (name, v) :: ms => by rw [ofMembers, ofMembers_eq_map ms, List.map_cons]

theorem ofMembers_append (ms ns : Members Json) :
    ofMembers (ms ++ ns) = ofMembers ms ++ ofMembers ns := by
  rw [ofMembers_eq_map, ofMembers_eq_map, ofMembers_eq_map, List.map_append]

end Source

/-- What goes on from a result that is there. -/
theorem Decoded.bind_of_ok {α β : Type} {x : Decoded α} {a : α} (h : x = .ok a)
    (next : α → Decoded β) : x >>= next = next a := by
  rw [h]
  rfl

theorem Decoded.exists_of_bind_ok {α β : Type} {x : Decoded α} {next : α → Decoded β} {b : β}
    (h : x >>= next = .ok b) : ∃ a, x = .ok a ∧ next a = .ok b := by
  cases x with
  | error e => cases h
  | ok a => exact ⟨a, rfl, h⟩

theorem Decoded.exists_first_of_bind_ok {α β : Type} {x : Decoded α} {next : α → Decoded β} {b : β}
    (h : x >>= next = .ok b) : ∃ a, x = .ok a :=
  (exists_of_bind_ok h).imp fun _ => And.left

namespace Decode

variable {α : Type}

theorem json_of_admits {v : Json} {medium : Medium} (h : v.Distinct) (hadmits : medium.Admits v) :
    json medium (Source.ofJson v) = .ok v := by
  rw [json, Source.toJson_of_admits h hadmits]
  rfl

theorem json_ofJson {v : Json} (h : v.Distinct) : json .value (Source.ofJson v) = .ok v :=
  json_of_admits h trivial

/-- A value that may be absent is read when it is there. -/
theorem optional_ofJson {read : Source → Decoded α} {encode : α → Json} {a? : Option α} {v : Json}
    (hv : a?.map encode = some v) (hnull : ∀ a, encode a ≠ .null)
    (hread : ∀ a ∈ a?, read (Source.ofJson (encode a)) = .ok a) :
    optional read (Source.ofJson v) = .ok a? := by
  obtain ⟨a, rfl, rfl⟩ := Option.map_eq_some_iff.1 hv
  have hread := hread a rfl
  cases hencode : encode a with
  | null => exact absurd hencode (hnull a)
  | bool | number | string | array | object =>
    rw [hencode] at hread
    exact congrArg (Except.map some) hread

/-- What is written part by part is read part by part. -/
theorem mapM_map_of_forall {β : Type} {read : β → Decoded α} {write : α → β} {as : List α}
    (h : ∀ a ∈ as, read (write a) = .ok a) : (as.map write).mapM read = .ok as := by
  induction as with
  | nil => rfl
  | cons a as ih =>
    rw [List.forall_mem_cons] at h
    rw [List.map_cons, List.mapM_cons, h.1, ih h.2]
    rfl

/-- The items of a list are read one level further in. -/
theorem sequence_of_enter {medium inner : Medium} (henter : medium.enter = .ok inner)
    (item : Medium → Source → Decoded α) (vs : List Json) :
    sequence medium item (Source.ofJson (.array vs)) =
      (vs.map Source.ofJson).mapM (item inner) := by
  change (do let inner ← Decoded.ofRead medium.enter; _) = _
  rw [henter, ← Source.ofItems_eq_map]
  exact bind_pure ((Source.ofItems vs).mapM (item inner))

theorem mapping_of_enter {medium inner : Medium} (henter : medium.enter = .ok inner)
    (expected : String) (item : Medium → Source → Decoded α) (ms : Members Json) :
    mapping medium expected item (Source.ofJson (.object ms)) =
      ms.mapM fun m => do
        let x ← item inner (Source.ofJson m.2)
        return (m.1, x) := by
  change (do let inner ← Decoded.ofRead medium.enter; _) = _
  rw [henter, Source.ofMembers_eq_map]
  exact (bind_pure (m := Decoded) _).trans List.mapM_map

theorem sequence_ofJson {item : Medium → Source → Decoded α} {encode : α → Json} {as : List α}
    (hitem : ∀ a ∈ as, item .value (Source.ofJson (encode a)) = .ok a) :
    sequence .value item (Source.ofJson (.array (as.map encode))) = .ok as := by
  rw [sequence_of_enter rfl, List.map_map]
  exact mapM_map_of_forall hitem

theorem mapping_ofJson {item : Medium → Source → Decoded α} {encode : α → Json} (expected : String)
    {cs : List (String × α)} (hitem : ∀ c ∈ cs, item .value (Source.ofJson (encode c.2)) = .ok c.2) :
    mapping .value expected item
      (Source.ofJson (.object (cs.map fun c => (c.1, encode c.2)))) = .ok cs := by
  rw [mapping_of_enter rfl]
  refine mapM_map_of_forall fun c hc => ?_
  rw [hitem c hc]
  rfl

/-- The members of an object without repeated names. -/
theorem members_of_admits {ms : Members Json} {medium : Medium} (h : (Json.object ms).Distinct)
    (hadmits : medium.Admits (.object ms)) : members medium (Source.ofJson (.object ms)) = .ok ms := by
  obtain ⟨hnodup, hms⟩ := Json.distinct_object_iff.1 h
  obtain ⟨inner, henter, hmembers⟩ := Medium.admits_object_iff.1 hadmits
  have hread := Source.toMembers_ofMembers []
    fun m hm => Source.toJson_of_admits (hms m hm) (hmembers m hm)
  rw [Source.ofJson, members, henter]
  change (do let members ← Decoded.ofRead (Source.toMembers inner [] (Source.ofMembers ms)); _) = _
  rw [hread]
  exact congrArg Except.ok (Members.ofList_of_nodup hnodup)

theorem members_ofJson {ms : Members Json} (h : (Json.object ms).Distinct) :
    members .value (Source.ofJson (.object ms)) = .ok ms :=
  members_of_admits h trivial

end Decode

/-! ## Records -/

namespace Record

variable {φ α : Type}

/-- The members for the fields that have a value, in order of declaration. -/
def members (r : Record φ α) (part : φ → Option Json) : Members Json :=
  Members.present (r.fields.map fun f => (r.name f, part f))

/-- **How a record is written**, field by field: what a field is written as, and what reading that
sets. -/
structure Written (r : Record φ α) (default a : α) (part : φ → Option Json) (copy : φ → α → α) :
    Prop where
  listed : ∀ f, f ∈ r.fields
  nodup : r.fields.Nodup
  known : ∀ f, r.field? (r.name f) = some f
  /-- Fields without a default are always written. -/
  required : ∀ f, r.isRequired f = true → (part f).isSome = true
  /-- What a field is written as is read as the field. -/
  read : ∀ f v, part f = some v → r.read .value f (Source.ofJson v) = .ok (copy f)
  /-- What is not written is the default. -/
  absent : ∀ f, part f = none → copy f default = default
  comm : ∀ f g b, copy f (copy g b) = copy g (copy f b)
  /-- The fields together are the record. -/
  whole : r.fields.foldl (fun b f => copy f b) default = a

/-- Fields that change nothing may be left out: the others do not come between. -/
theorem foldl_filter {copy : φ → α → α} {p : φ → Bool}
    (comm : ∀ f g b, copy f (copy g b) = copy g (copy f b)) : ∀ {fs : List φ} {b : α},
      (∀ f ∈ fs, p f = false → copy f b = b) →
        (fs.filter p).foldl (fun b f => copy f b) b = fs.foldl (fun b f => copy f b) b
  | [], _, _ => rfl
  | f :: fs, b, h => by
    rw [List.forall_mem_cons] at h
    cases hp : p f with
    | true =>
      rw [List.filter_cons_of_pos hp, List.foldl_cons, List.foldl_cons]
      exact foldl_filter comm fun g hg hpg => by rw [comm, h.2 g hg hpg]
    | false =>
      rw [List.filter_cons_of_neg (Bool.not_eq_true _ ▸ hp), List.foldl_cons, h.1 hp]
      exact foldl_filter comm h.2

variable {r : Record φ α} {default a : α} {part : φ → Option Json} {copy : φ → α → α}

theorem Written.name_injective (h : r.Written default a part copy) : r.name.Injective :=
  fun f g hfg => Option.some.inj (by rw [← h.known f, ← h.known g, hfg])

theorem mem_names_members {name : String} (h : name ∈ Members.names (r.members part)) :
    ∃ f, r.name f = name := by
  have hmem := (Members.names_present_sublist _).subset h
  rw [List.map_map] at hmem
  obtain ⟨f, -, hname⟩ := List.mem_map.1 hmem
  exact ⟨f, hname⟩

/-- What a record is written as repeats no name, when the values of its fields do not. -/
theorem Written.distinct (h : r.Written default a part copy)
    (hpart : ∀ f v, part f = some v → v.Distinct) : (Json.object (r.members part)).Distinct := by
  refine Json.distinct_present ?_ fun name v hmem => ?_
  · rw [List.map_map]
    exact h.nodup.map h.name_injective
  · obtain ⟨f, -, heq⟩ := List.mem_map.1 hmem
    exact hpart f v (Prod.mk.inj heq).2

variable [DecidableEq φ]

section

variable {medium : Medium} {name : String} {x : Source}
  {rest : List (Except Flaw String × Source)} {seen : List φ} {f : φ} {keep : String → Json → α → α}

theorem readMembers_of_field (hname : r.field? name = some f) (hseen : f ∉ seen) :
    r.readMembers medium ((.ok name, x) :: rest) seen a =
      (r.read medium f x >>= fun set => r.readMembers medium rest (f :: seen) (set a)) := by
  rw [readMembers, Decoded.ofRead, Decoded.bind_of_ok rfl, hname]
  exact if_neg hseen

theorem readMembers_of_repeated (hname : r.field? name = some f) (hseen : f ∈ seen) :
    r.readMembers medium ((.ok name, x) :: rest) seen a = .error (.duplicateField (r.name f)) := by
  rw [readMembers, Decoded.ofRead, Decoded.bind_of_ok rfl, hname]
  exact if_pos hseen

theorem readMembers_of_kept (hname : r.field? name = none) (hkeep : r.keep = some keep) :
    r.readMembers medium ((.ok name, x) :: rest) seen a =
      (Decode.json medium x >>= fun v => r.readMembers medium rest seen (keep name v a)) := by
  rw [readMembers, Decoded.ofRead, Decoded.bind_of_ok rfl, hname, hkeep]

theorem readMembers_of_skipped (hname : r.field? name = none) (hkeep : r.keep = none) :
    r.readMembers medium ((.ok name, x) :: rest) seen a =
      (Decoded.ofRead x.skip >>= fun _ => r.readMembers medium rest seen a) := by
  rw [readMembers, Decoded.ofRead, Decoded.bind_of_ok rfl, hname, hkeep]

theorem enter_value : Decoded.ofRead Medium.value.enter = .ok .value := rfl

/-- Members that are read without one that is required missing are read as the record. -/
theorem decode_of_readMembers {ms : Members Json}
    (h : r.readMembers .value (Source.ofMembers ms) [] default = .ok (seen, a))
    (hrequired : ∀ f, r.isRequired f = true → f ∈ seen) :
    r.decode .value default (Source.ofJson (.object ms)) = .ok a := by
  have hnone : r.fields.find? (fun f => r.isRequired f && f ∉ seen) = none := by
    rw [List.find?_eq_none]
    intro f _ hf
    simp only [Bool.and_eq_true, decide_eq_true_eq] at hf
    exact hf.2 (hrequired f hf.1)
  rw [Source.ofJson, decode, Decoded.bind_of_ok enter_value, Decoded.bind_of_ok h]
  simp only [Ending.check, Decoded.ofRead, hnone]
  rfl

/-- A record is what its members are read as. -/
theorem readMembers_of_decode {ms : Members Json}
    (h : r.decode .value default (Source.ofJson (.object ms)) = .ok a) :
    ∃ seen, r.readMembers .value (Source.ofMembers ms) [] default = .ok (seen, a) := by
  rw [Source.ofJson, decode, Decoded.bind_of_ok enter_value] at h
  obtain ⟨result, hread, h⟩ := Decoded.exists_of_bind_ok h
  refine ⟨result.1, hread.trans ?_⟩
  simp only [Ending.check, Decoded.ofRead] at h
  split at h <;> cases h
  rfl

end

/-- Fields that were not read before are read one after the other. -/
theorem Written.readMembers_present (h : r.Written default a part copy)
    (rest : List (Except Flaw String × Source)) : ∀ {fs seen : List φ} {b : α}, fs.Nodup →
      (∀ f ∈ fs, f ∉ seen) →
        ∃ after, (∀ f ∈ fs, (part f).isSome = true → f ∈ after) ∧ seen ⊆ after ∧
          r.readMembers .value
              (Source.ofMembers (Members.present (fs.map fun f => (r.name f, part f))) ++ rest) seen
              b =
            r.readMembers .value rest after
              ((fs.filter fun f => (part f).isSome).foldl (fun b f => copy f b) b)
  | [], seen, _, _, _ => ⟨seen, fun _ hf => absurd hf List.not_mem_nil, List.Subset.refl _, rfl⟩
  | f :: fs, seen, b, hnodup, hnew => by
    rw [List.nodup_cons] at hnodup
    rw [List.forall_mem_cons] at hnew
    cases hpart : part f with
    | none =>
      obtain ⟨after, hread, hseen, heq⟩ :=
        readMembers_present h rest (b := b) hnodup.2 hnew.2
      refine ⟨after, List.forall_mem_cons.2 ⟨fun hsome => ?_, hread⟩, hseen, ?_⟩
      · rw [hpart] at hsome
        cases hsome
      · rw [List.filter_cons_of_neg (by simp [hpart]), ← heq, List.map_cons, hpart]
        rfl
    | some v =>
      have hlater : ∀ g ∈ fs, g ∉ f :: seen := fun g hg =>
        List.not_mem_cons_of_ne_of_not_mem (fun he => hnodup.1 (he ▸ hg)) (hnew.2 g hg)
      obtain ⟨after, hread, hseen, heq⟩ :=
        readMembers_present h rest (b := copy f b) hnodup.2 hlater
      refine ⟨after, List.forall_mem_cons.2 ⟨fun _ => hseen List.mem_cons_self, hread⟩,
        fun g hg => hseen (List.mem_cons_of_mem f hg), ?_⟩
      rw [List.filter_cons_of_pos (by simp [hpart]), List.foldl_cons, ← heq, List.map_cons, hpart]
      exact (readMembers_of_field (h.known f) hnew.1).trans
        (Decoded.bind_of_ok (h.read f v hpart) _)

/-- What is written of a record, and members behind it, is read as the record, and then the rest. -/
theorem Written.readMembers_members (h : r.Written default a part copy)
    (rest : List (Except Flaw String × Source)) :
    ∃ after, (∀ f, r.isRequired f = true → f ∈ after) ∧
      r.readMembers .value (Source.ofMembers (r.members part) ++ rest) [] default =
        r.readMembers .value rest after a := by
  obtain ⟨after, hread, -, heq⟩ := h.readMembers_present rest (b := default) h.nodup
    fun _ _ => List.not_mem_nil
  refine ⟨after, fun f hf => hread f (h.listed f) (h.required f hf), ?_⟩
  rw [members, heq, foldl_filter h.comm, h.whole]
  intro f _ hf
  rw [Option.isSome_eq_false_iff, Option.isNone_iff_eq_none] at hf
  exact h.absent f hf

/-- What is written of a record, with members behind it that are read by themselves. -/
theorem Written.decode_append (h : r.Written default a part copy) (more : Members Json) {a' : α}
    (hmore : ∀ seen, r.readMembers .value (Source.ofMembers more) seen a = .ok (seen, a')) :
    r.decode .value default (Source.ofJson (.object (r.members part ++ more))) = .ok a' := by
  obtain ⟨after, hrequired, heq⟩ := h.readMembers_members (Source.ofMembers more)
  rw [hmore after, ← Source.ofMembers_append] at heq
  exact decode_of_readMembers heq hrequired

/-- **What a record is written as is read as the record.** -/
theorem Written.decode_ofJson (h : r.Written default a part copy) :
    r.decode .value default (Source.ofJson (.object (r.members part))) = .ok a := by
  have hread := h.decode_append [] fun _ => rfl
  rwa [List.append_nil] at hread

end Record
end Schemata
