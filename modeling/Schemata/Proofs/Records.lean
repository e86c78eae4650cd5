import Schemata.Description.Decode
import Schemata.Description.Encode
import Schemata.Proofs.Reading
/-!
# Records — rules, flags, dependencies, key patterns and branches read back

Each of them is written field by field, and read as what it was.  Of the flags those without a
meaning come last; they must not have the name of one with a meaning.  A branch that depends on a
condition is told apart by its members, so there must be one, and a null would be read as nothing.
-/
namespace Schemata

namespace Members

theorem optional_eq {α : Type} (name : String) (encode : α → Json) (a? : Option α) :
    optional name encode a? = ((a?.map encode).map fun v => (name, v)).toList := by
  cases a? <;> rfl

end Members

theorem Json.isNull_iff {v : Json} : v.isNull = true ↔ v = .null := by
  cases v <;> simp [isNull]

/-! ## Rules -/

namespace Rule

def part (r : Rule) : Field → Option Json
  | .name => some (.string r.name)
  | .arg => if r.arg.isNull then none else some r.arg

def copy (r : Rule) : Field → Rule → Rule
  | .name, b => { b with name := r.name }
  | .arg, b => { b with arg := r.arg }

theorem toJson_eq (r : Rule) : r.toJson = .object (record.members r.part) := by
  cases h : r.arg.isNull <;> simp [toJson, Record.members, record, part, Members.present, h]

theorem written {r : Rule} (harg : r.arg.Distinct) :
    record.Written { name := "" } r r.part r.copy where
  listed f := by cases f <;> decide
  nodup := by decide
  known f := by cases f <;> decide
  required f hf := by
    cases f with
    | name => rfl
    | arg => exact absurd hf (by decide)
  read f v hv := by
    cases f with
    | name =>
      cases hv
      rfl
    | arg =>
      rw [part] at hv
      split at hv <;> cases hv
      exact Decoded.bind_of_ok (Decode.json_ofJson harg) _
  absent f hf := by
    cases f with
    | name => cases hf
    | arg =>
      rw [part] at hf
      split at hf <;> cases hf
      rename_i hnull
      rw [copy, Json.isNull_iff.1 hnull]
  comm f g b := by cases f <;> cases g <;> rfl
  whole := rfl

theorem distinct_toJson {r : Rule} (harg : r.arg.Distinct) : r.toJson.Distinct := by
  rw [toJson_eq]
  refine (written harg).distinct fun f v hv => ?_
  cases f with
  | name =>
    cases hv
    exact .string _
  | arg =>
    rw [part] at hv
    split at hv <;> cases hv
    exact harg

end Rule

/-! ## Flags -/

namespace Flags

/-- What a flag with a meaning is written as. -/
def part (f : Flags) : Field → Option Json
  | .presence => f.presence.map fun p => .string p.name
  | .allowOnly => some (.bool f.allowOnly)
  | .default => f.default
  | .allowUnknown => f.allowUnknown.map .bool
  | .sparse => some (.bool f.sparse)
  | .encoding => f.encoding.map .string
  | .timestamp => some (.bool f.timestamp)
  | .truncate => some (.bool f.truncate)
  | .trim => some (.bool f.trim)
  | .normalize => some (.bool f.normalize)
  | .insensitive => some (.bool f.insensitive)
  | .letterCase => f.letterCase.map .string
  | .byteAligned => some (.bool f.byteAligned)

def copy (f : Flags) : Field → Flags → Flags
  | .presence, b => { b with presence := f.presence }
  | .allowOnly, b => { b with allowOnly := f.allowOnly }
  | .default, b => { b with default := f.default }
  | .allowUnknown, b => { b with allowUnknown := f.allowUnknown }
  | .sparse, b => { b with sparse := f.sparse }
  | .encoding, b => { b with encoding := f.encoding }
  | .timestamp, b => { b with timestamp := f.timestamp }
  | .truncate, b => { b with truncate := f.truncate }
  | .trim, b => { b with trim := f.trim }
  | .normalize, b => { b with normalize := f.normalize }
  | .insensitive, b => { b with insensitive := f.insensitive }
  | .letterCase, b => { b with letterCase := f.letterCase }
  | .byteAligned, b => { b with byteAligned := f.byteAligned }

theorem copy_all (f : Flags) :
    record.fields.foldl (fun b g => f.copy g b) {} = { f with other := [] } := by
  change Field.all.foldl _ _ = _
  dsimp only [Field.all, List.foldl_cons, List.foldl_nil, copy]

theorem toMembers_eq (f : Flags) : f.toMembers = record.members f.part ++ f.other := by
  change _ = Members.present (Field.all.map fun g => (g.name, f.part g)) ++ f.other
  simp only [toMembers, Field.all, List.map_cons, List.map_nil, Members.present_cons,
    Members.optional_eq, List.append_assoc, part, Option.map_some, Option.toList_some, Option.map_id]
  rfl

/-- The values that flags hold repeat no name. -/
structure Distinct (f : Flags) : Prop where
  default : ∀ v ∈ f.default, v.Distinct
  other : (Json.object f.other).Distinct

/-- Flags without a meaning do not have the name of one with a meaning. -/
def Regular (f : Flags) : Prop := ∀ name ∈ Members.names f.other, Field.ofName? name = none

theorem regular_bare : Distinct {} ∧ Regular {} :=
  ⟨⟨by simp, by simp [Members.names]⟩, by simp [Regular, Members.names]⟩

theorem written {f : Flags} (hf : f.Distinct) :
    record.Written {} { f with other := [] } f.part f.copy where
  listed g := by cases g <;> decide
  nodup := by decide
  known g := by cases g <;> decide
  required g hg := by cases hg
  read g v hv := by
    cases g with
    | presence =>
      refine Decoded.bind_of_ok (Decode.optional_ofJson hv (by simp) fun p _ => ?_) _
      cases p <;> rfl
    | default =>
      refine (Decoded.bind_of_ok (Decode.json_ofJson (hf.default v hv)) _).trans ?_
      exact congrArg Except.ok (funext fun b => by rw [copy, ← hv, part])
    | allowUnknown =>
      exact Decoded.bind_of_ok (Decode.optional_ofJson hv (by simp) fun _ _ => rfl) _
    | encoding | letterCase =>
      exact Decoded.bind_of_ok (Decode.optional_ofJson hv (by simp) fun _ _ => rfl) _
    | allowOnly | sparse | timestamp | truncate | trim | normalize | insensitive | byteAligned =>
      cases hv
      rfl
  absent g hg := by
    cases g with
    | presence | default | allowUnknown | encoding | letterCase =>
      simp only [part, Option.map_eq_none_iff] at hg
      rw [copy, hg]
    | allowOnly | sparse | timestamp | truncate | trim | normalize | insensitive | byteAligned =>
      cases hg
  comm g h b := by cases g <;> cases h <;> rfl
  whole := f.copy_all

/-- Members with no meaning are kept. -/
theorem readMembers_other (seen : List Field) : ∀ {other : Members Json} {b : Flags},
    (∀ m ∈ other, m.2.Distinct) → (∀ name ∈ Members.names other, Field.ofName? name = none) →
      record.readMembers .value (Source.ofMembers other) seen b =
        .ok (seen, { b with other := Members.insertAll b.other other })
  | [], _, _, _ => rfl
  | (name, v) :: other, b, hdistinct, hunknown => by
    rw [List.forall_mem_cons] at hdistinct
    have hname : record.field? name = none := hunknown name List.mem_cons_self
    rw [Source.ofMembers, Record.readMembers_of_kept hname rfl,
      Decoded.bind_of_ok (Decode.json_ofJson hdistinct.1)]
    exact readMembers_other seen hdistinct.2 fun n hn => hunknown n (List.mem_cons_of_mem _ hn)

theorem distinct_part {f : Flags} (hf : f.Distinct) (g : Field) (v : Json)
    (hv : f.part g = some v) : v.Distinct := by
  cases g with
  | default => exact hf.default v hv
  | presence | allowUnknown | encoding | letterCase =>
    obtain ⟨_, -, rfl⟩ := Option.map_eq_some_iff.1 hv
    constructor
  | allowOnly | sparse | timestamp | truncate | trim | normalize | insensitive | byteAligned =>
    cases hv
    constructor

/-- Flags are written without a repeated name. -/
theorem distinct_toMembers {f : Flags} (hf : f.Distinct) (hr : f.Regular) :
    (Json.object f.toMembers).Distinct := by
  rw [toMembers_eq]
  refine ((written hf).distinct (distinct_part hf)).append hf.other fun name hname hother => ?_
  obtain ⟨g, rfl⟩ := Record.mem_names_members hname
  cases ((written hf).known g).symm.trans (hr _ hother)

/-- **Flags are read as they were.** -/
theorem decode_ofJson {f : Flags} (hf : f.Distinct) (hr : f.Regular) :
    record.decode .value {} (Source.ofJson (.object (Members.ofList f.toMembers))) = .ok f := by
  obtain ⟨hnodup, hother⟩ := Json.distinct_object_iff.1 hf.other
  rw [Members.ofList_of_nodup (Json.distinct_object_iff.1 (distinct_toMembers hf hr)).1, toMembers_eq]
  refine (written hf).decode_append f.other fun seen => ?_
  rw [readMembers_other seen hother hr]
  change Except.ok (seen, { f with other := Members.ofList f.other }) = _
  rw [Members.ofList_of_nodup hnodup]

end Flags

/-! ## Dependencies -/

theorem Decode.strings_ofJson (xs : List String) :
    sequence .value (fun _ => string) (Source.ofJson (Json.ofStrings xs)) = .ok xs :=
  sequence_ofJson fun _ _ => rfl

theorem Json.distinct_ofStrings (xs : List String) : (ofStrings xs).Distinct := by
  refine .array fun v hv => ?_
  obtain ⟨s, -, rfl⟩ := List.mem_map.1 hv
  exact .string s

namespace Dependency

def part (d : Dependency) : Field → Option Json
  | .relation => some (.string d.relation)
  | .key => d.key.map .string
  | .peers => some (Json.ofStrings d.peers)

def copy (d : Dependency) : Field → Dependency → Dependency
  | .relation, b => { b with relation := d.relation }
  | .key, b => { b with key := d.key }
  | .peers, b => { b with peers := d.peers }

theorem toJson_eq (d : Dependency) : d.toJson = .object (record.members d.part) := by
  change _ = Json.object (Members.present [("type", d.part .relation), ("key", d.part .key),
    ("peers", d.part .peers)])
  simp only [toJson, Members.present_cons, Members.optional_eq, List.append_assoc]
  rfl

theorem written (d : Dependency) : record.Written { relation := "" } d d.part d.copy where
  listed f := by cases f <;> decide
  nodup := by decide
  known f := by cases f <;> decide
  required f hf := by
    cases f with
    | relation | peers => rfl
    | key => exact absurd hf (by decide)
  read f v hv := by
    cases f with
    | relation =>
      cases hv
      rfl
    | key => exact Decoded.bind_of_ok (Decode.optional_ofJson hv (by simp) fun _ _ => rfl) _
    | peers =>
      cases hv
      exact Decoded.bind_of_ok (Decode.strings_ofJson d.peers) _
  absent f hf := by
    cases f with
    | relation | peers => cases hf
    | key => rw [copy, Option.map_eq_none_iff.1 hf]
  comm f g b := by cases f <;> cases g <;> rfl
  whole := rfl

theorem distinct_toJson (d : Dependency) : d.toJson.Distinct := by
  rw [toJson_eq]
  refine (written d).distinct fun f v hv => ?_
  cases f with
  | relation =>
    cases hv
    exact .string _
  | key =>
    obtain ⟨s, -, rfl⟩ := Option.map_eq_some_iff.1 hv
    exact .string s
  | peers =>
    cases hv
    exact Json.distinct_ofStrings _

end Dependency

/-! ## Key patterns -/

namespace PatternRule

variable {α : Type}

def part (write : α → Json) (p : PatternRule α) : Field → Option Json
  | .regex => p.regex.map .string
  | .schema => p.schema.map write
  | .rule => some (write p.rule)

def copy (p : PatternRule α) : Field → PatternRule α → PatternRule α
  | .regex, b => { b with regex := p.regex }
  | .schema, b => { b with schema := p.schema }
  | .rule, b => { b with rule := p.rule }

/-- What a key pattern is written as, given what a description is. -/
def members (write : α → Json) (p : PatternRule α) : Members Json :=
  Members.present [("regex", p.part write .regex), ("schema", p.part write .schema),
    ("rule", p.part write .rule)]

def toJson (write : α → Json) (p : PatternRule α) : Json := .object (p.members write)

theorem mem_members_rule (write : α → Json) (p : PatternRule α) :
    ("rule", write p.rule) ∈ p.members write := by
  simp [members, Members.present_cons, part]

theorem mem_members_schema (write : α → Json) {p : PatternRule α} {a : α} (h : p.schema = some a) :
    ("schema", write a) ∈ p.members write := by
  simp [members, Members.present_cons, part, h]

theorem written {write : α → Json} {description : Medium → Source → Decoded α} {p : PatternRule α}
    {bare : α} (hnull : ∀ a, write a ≠ .null)
    (hschema : ∀ a ∈ p.schema, description .value (Source.ofJson (write a)) = .ok a)
    (hrule : description .value (Source.ofJson (write p.rule)) = .ok p.rule) :
    (record description).Written { rule := bare } p (p.part write) p.copy where
  listed f := by cases f <;> simp [record]
  nodup := by simp [record]
  known f := by cases f <;> simp [record]
  required f hf := by
    cases f with
    | regex | schema => simp [record] at hf
    | rule => rfl
  read f v hv := by
    cases f with
    | regex => exact Decoded.bind_of_ok (Decode.optional_ofJson hv (by simp) fun _ _ => rfl) _
    | schema => exact Decoded.bind_of_ok (Decode.optional_ofJson hv hnull hschema) _
    | rule =>
      cases hv
      exact Decoded.bind_of_ok hrule _
  absent f hf := by
    cases f with
    | regex | schema => rw [copy, Option.map_eq_none_iff.1 hf]
    | rule => cases hf
  comm f g b := by cases f <;> cases g <;> rfl
  whole := rfl

theorem distinct_toJson {write : α → Json} {p : PatternRule α}
    (hschema : ∀ a ∈ p.schema, (write a).Distinct) (hrule : (write p.rule).Distinct) :
    (p.toJson write).Distinct := by
  refine Json.distinct_present (by decide : ["regex", "schema", "rule"].Nodup) fun name v hv => ?_
  simp only [part, List.mem_cons, Prod.mk.injEq, List.not_mem_nil, or_false] at hv
  rcases hv with ⟨-, hv⟩ | ⟨-, hv⟩ | ⟨-, hv⟩
  · obtain ⟨s, -, rfl⟩ := Option.map_eq_some_iff.1 hv.symm
    exact .string s
  · obtain ⟨a, ha, rfl⟩ := Option.map_eq_some_iff.1 hv.symm
    exact hschema a ha
  · cases hv
    exact hrule

end PatternRule

/-! ## Branches -/

namespace Conditional

/-- The members of a condition, present or not. -/
def table (c : Conditional) : List (String × Option Json) :=
  [("ref", c.reference), ("is", c.is), ("then", c.consequent), ("otherwise", c.otherwise)]

theorem toJson_eq (c : Conditional) : c.toJson = .object (Members.present c.table) := by
  simp only [toJson, table, Members.present_cons, Members.present_nil, Members.optional_eq,
    List.append_assoc, List.append_nil, Option.map_id_fun, id_eq]

/-- The values that a condition holds repeat no name. -/
def Distinct (c : Conditional) : Prop := ∀ key v, (key, some v) ∈ c.table → v.Distinct

/-- No member is an explicit null. -/
def Regular (c : Conditional) : Prop := ∀ key v, (key, some v) ∈ c.table → v ≠ .null

/-- Some member is there. -/
def Decided (c : Conditional) : Prop := ∃ key v, (key, some v) ∈ c.table

theorem nodup_table (c : Conditional) : (c.table.map Prod.fst).Nodup :=
  (by decide : ["ref", "is", "then", "otherwise"].Nodup)

theorem distinct_toJson {c : Conditional} (h : c.Distinct) : c.toJson.Distinct := by
  rw [toJson_eq]
  exact Json.distinct_present c.nodup_table h

/-- A member is read back as it was, since a null one is not there. -/
theorem part?_present {c : Conditional} (h : c.Regular) {key : String} {v? : Option Json}
    (hmem : (key, v?) ∈ c.table) : part? (Members.present c.table) key = v? := by
  rw [part?, Members.get?_present c.nodup_table hmem]
  cases v? with
  | none => rfl
  | some v =>
    have hv : v.isNull = false := Bool.eq_false_iff.2 fun hn => h key v hmem (Json.isNull_iff.1 hn)
    simp [Option.filter, hv]

theorem ofMembers_present {c : Conditional} (h : c.Regular) :
    ofMembers (Members.present c.table) = c := by
  have hreference : ("ref", c.reference) ∈ c.table := by simp [table]
  have his : ("is", c.is) ∈ c.table := by simp [table]
  have hconsequent : ("then", c.consequent) ∈ c.table := by simp [table]
  have hotherwise : ("otherwise", c.otherwise) ∈ c.table := by simp [table]
  rw [ofMembers, part?_present h hreference, part?_present h his, part?_present h hconsequent,
    part?_present h hotherwise]

end Conditional

namespace Alternative

variable {α : Type} {description : Source → Decoded α}

/-- A branch with a type is read as a description. -/
theorem ofJson_of_type {ms : Members Json} {a : α} (htype : Members.contains ms "type" = true)
    (h : description (Source.ofJson (.object ms)) = .ok a) :
    ofJson description (.object ms) = .ok (schema a) := by
  change (if Members.contains ms "type" then _ else _) = _
  rw [if_pos htype, h]
  rfl

/-- **A condition is read as it was.** -/
theorem ofJson_conditional {c : Conditional} (hc : c.Regular) (hdecided : c.Decided) :
    ofJson description c.toJson = .ok (conditional c) := by
  have htype : Members.contains (Members.present c.table) "type" = false := by
    rw [Bool.eq_false_iff, ne_eq, Members.contains_iff]
    exact fun h => absurd ((Members.names_present_sublist _).subset h)
      (by decide : "type" ∉ ["ref", "is", "then", "otherwise"])
  have hkey : Conditional.keys.any (Members.contains (Members.present c.table)) = true := by
    obtain ⟨key, v, hmem⟩ := hdecided
    have hkeys : c.table.map Prod.fst = Conditional.keys := rfl
    refine List.any_eq_true.2 ⟨key, hkeys ▸ List.mem_map.2 ⟨_, hmem, rfl⟩, ?_⟩
    rw [Members.contains, Members.get?_present c.nodup_table hmem]
    rfl
  rw [Conditional.toJson_eq]
  change (if Members.contains (Members.present c.table) "type" then _
    else if Conditional.keys.any (Members.contains (Members.present c.table)) then _ else _) = _
  rw [htype, hkey, Conditional.ofMembers_present hc]
  rfl

end Alternative
end Schemata
