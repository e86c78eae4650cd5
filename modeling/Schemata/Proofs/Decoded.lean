import Schemata.Proofs.Reading
/-!
# Decoded — what holds of all that is read

Whatever a value is, what is read of it has some properties: a list has those of its items, and named
values come under distinct names.  A record has what its defaults have and every field keeps, be it
read from an object or from an array (`Record.Keeps.reads`).
-/
namespace Schemata

namespace Decoded

variable {α β : Type} {P : α → Prop} {Q : β → Prop}

/-- What is decoded, if anything is, has a property. -/
def Gives (P : α → Prop) (x : Decoded α) : Prop := ∀ a, x = .ok a → P a

theorem gives_ok {a : α} (h : P a) : Gives P (.ok a) := by
  rintro _ ⟨⟩
  exact h

theorem gives_error (e : DecodeError) : Gives P (.error e) := by
  rintro _ ⟨⟩

theorem gives_true (x : Decoded α) : Gives (fun _ => True) x := fun _ _ => trivial

theorem Gives.bind {x : Decoded α} {next : α → Decoded β} (hx : Gives P x)
    (hnext : ∀ a, P a → Gives Q (next a)) : Gives Q (x >>= next) := by
  cases x with
  | error e => exact gives_error e
  | ok a => exact hnext a (hx a rfl)

theorem Gives.map {x : Decoded α} {g : α → β} (hx : Gives P x) (hg : ∀ a, P a → Q (g a)) :
    Gives Q (x.map g) := by
  cases x with
  | error e => exact gives_error e
  | ok a => exact gives_ok (hg a (hx a rfl))

/-- Of a list read item by item every item was read. -/
theorem exists_of_mapM_ok {read : α → Decoded β} : ∀ {as : List α} {bs : List β},
    as.mapM read = .ok bs → ∀ a ∈ as, ∃ b, read a = .ok b
  | [], _, _ => List.forall_mem_nil _
  | a :: as, _, h => by
    rw [List.mapM_cons] at h
    obtain ⟨b, hb, h⟩ := exists_of_bind_ok h
    obtain ⟨bs, hbs⟩ := exists_first_of_bind_ok h
    exact List.forall_mem_cons.2 ⟨⟨b, hb⟩, exists_of_mapM_ok hbs⟩

/-- Of a list read item by item every item has the property. -/
theorem gives_mapM {read : α → Decoded β} : ∀ {as : List α}, (∀ a ∈ as, Gives Q (read a)) →
    Gives (fun bs => ∀ b ∈ bs, Q b) (as.mapM read)
  | [], _ => gives_ok fun _ hb => absurd hb List.not_mem_nil
  | a :: as, h => by
    rw [List.forall_mem_cons] at h
    rw [List.mapM_cons]
    exact h.1.bind fun b hb => (gives_mapM h.2).bind fun bs hbs =>
      gives_ok (List.forall_mem_cons.2 ⟨hb, hbs⟩)

end Decoded

namespace Decode

open Decoded (Gives gives_ok gives_error gives_true gives_mapM exists_of_bind_ok
  exists_first_of_bind_ok exists_of_mapM_ok)

variable {α : Type} {P : α → Prop}

/-- **What a reader gives of any value has a property.** -/
def Reads (P : α → Prop) (read : Source → Decoded α) : Prop :=
  ∀ v : Json, v.Distinct → Gives P (read (Source.ofJson v))

theorem reads_true (read : Source → Decoded α) : Reads (fun _ => True) read :=
  fun _ _ => gives_true _

theorem reads_json : Reads Json.Distinct (json .value) := by
  intro v hv
  rw [json_ofJson hv]
  exact gives_ok hv

theorem reads_optional {read : Source → Decoded α} (h : Reads P read) :
    Reads (fun a? => ∀ a ∈ a?, P a) (optional read) := by
  intro v hv
  cases v with
  | null => exact gives_ok (by simp)
  | bool | number | string | array | object =>
    refine (h _ hv).map fun a ha b hb => ?_
    cases hb
    exact ha

theorem reads_sequence {item : Medium → Source → Decoded α} (h : Reads P (item .value)) :
    Reads (fun as => ∀ a ∈ as, P a) (sequence .value item) := by
  intro v hv
  cases v with
  | array vs =>
    rw [sequence_of_enter rfl]
    refine gives_mapM (List.forall_mem_map.2 fun w hw => ?_)
    exact h w (Json.distinct_array_iff.1 hv w hw)
  | null | bool | number | string | object => exact gives_error _

theorem reads_members : Reads (fun ms => (Json.object ms).Distinct) (members .value) := by
  intro v hv
  cases v with
  | object ms =>
    rw [members_ofJson hv]
    exact gives_ok hv
  | null | bool | number | string | array => exact gives_error _

/-- Reading one of the named values. -/
def mappingItem (item : Medium → Source → Decoded α) (m : Except Flaw String × Source) :
    Decoded (String × α) := do
  let name ← Decoded.ofRead m.1
  let x ← item .value m.2
  return (name, x)

theorem gives_mapM_members {item : Medium → Source → Decoded α} : ∀ {ms : Members Json},
    (∀ m ∈ ms, Gives P (item .value (Source.ofJson m.2))) →
      Gives (fun cs => cs.map Prod.fst = Members.names ms ∧ ∀ c ∈ cs, P c.2)
        ((Source.ofMembers ms).mapM (mappingItem item))
  | [], _ => gives_ok ⟨rfl, List.forall_mem_nil _⟩
  | (name, v) :: ms, h => by
    rw [List.forall_mem_cons] at h
    rw [Source.ofMembers, List.mapM_cons]
    have hfirst : Gives (fun c : String × α => c.1 = name ∧ P c.2)
        (mappingItem item (.ok name, Source.ofJson v)) :=
      h.1.bind fun a ha => gives_ok ⟨rfl, ha⟩
    refine hfirst.bind fun c hc => (gives_mapM_members h.2).bind fun cs hcs => gives_ok ?_
    exact ⟨congrArg₂ List.cons hc.1 hcs.1, List.forall_mem_cons.2 ⟨hc.2, hcs.2⟩⟩

theorem reads_mapping {item : Medium → Source → Decoded α} (expected : String)
    (h : Reads P (item .value)) :
    Reads (fun cs => (cs.map Prod.fst).Nodup ∧ ∀ c ∈ cs, P c.2) (mapping .value expected item) := by
  intro v hv
  cases v with
  | object ms =>
    obtain ⟨hnodup, hms⟩ := Json.distinct_object_iff.1 hv
    change Gives _ ((Source.ofMembers ms).mapM (mappingItem item) >>= fun cs => .ok cs)
    refine (gives_mapM_members fun m hm => h m.2 (hms m hm)).bind fun cs hcs => gives_ok ?_
    rw [hcs.1]
    exact ⟨hnodup, hcs.2⟩
  | null | bool | number | string | array => exact gives_error _

/-! ### Of what is read every part is read -/

theorem exists_of_optional_ok {read : Source → Decoded α} {v : Json} {a? : Option α}
    (h : optional read (Source.ofJson v) = .ok a?) (hnull : v ≠ .null) :
    ∃ a, read (Source.ofJson v) = .ok a := by
  have hread : (read (Source.ofJson v)).map some = .ok a? := by
    cases v with
    | null => exact absurd rfl hnull
    | bool | number | string | array | object => exact h
  cases hx : read (Source.ofJson v) with
  | ok a => exact ⟨a, rfl⟩
  | error e =>
    rw [hx] at hread
    cases hread

theorem exists_of_sequence_ok {item : Medium → Source → Decoded α} {vs : List Json} {as : List α}
    (h : sequence .value item (Source.ofJson (.array vs)) = .ok as) :
    ∀ v ∈ vs, ∃ a, item .value (Source.ofJson v) = .ok a := by
  rw [sequence_of_enter rfl] at h
  exact fun v hv => exists_of_mapM_ok h _ (List.mem_map_of_mem hv)

theorem exists_of_mapping_ok {item : Medium → Source → Decoded α} {expected : String}
    {ms : Members Json} {cs : List (String × α)}
    (h : mapping .value expected item (Source.ofJson (.object ms)) = .ok cs) :
    ∀ m ∈ ms, ∃ a, item .value (Source.ofJson m.2) = .ok a := by
  change (Source.ofMembers ms).mapM (mappingItem item) >>= _ = _ at h
  obtain ⟨bs, hbs⟩ := exists_first_of_bind_ok h
  rw [Source.ofMembers_eq_map] at hbs
  intro m hm
  obtain ⟨c, hc⟩ := exists_of_mapM_ok hbs _ (List.mem_map_of_mem hm)
  obtain ⟨_, -, hc⟩ := exists_of_bind_ok hc
  exact exists_first_of_bind_ok hc

end Decode

namespace Record

open Decoded (Gives gives_ok gives_error gives_true exists_of_bind_ok)

variable {φ α : Type} {r : Record φ α} {P : α → Prop}

/-- What every field keeps, and every member that is kept. -/
structure Keeps (r : Record φ α) (P : α → Prop) : Prop where
  read : ∀ f, Decode.Reads (fun set => ∀ a, P a → P (set a)) (r.read .value f)
  keep : ∀ keep ∈ r.keep, ∀ name v a, r.field? name = none → v.Distinct → P a → P (keep name v a)

theorem Keeps.readItems (h : r.Keeps P) : ∀ {fs : List φ} {vs : List Json} {index : Nat} {a : α},
    (∀ v ∈ vs, v.Distinct) → P a →
      Gives P (r.readItems .value .closed fs (Source.ofItems vs) index a)
  | [], [], _, _, _, ha => gives_ok ha
  | [], _ :: _, _, _, _, _ => gives_error _
  | f :: fs, [], index, a, hvs, ha => by
    change Gives P (if r.isRequired f then _ else _)
    split
    · exact gives_error _
    · exact readItems h hvs ha
  | f :: fs, v :: vs, index, a, hvs, ha => by
    rw [List.forall_mem_cons] at hvs
    exact (h.read f v hvs.1).bind fun set hset => readItems h hvs.2 (hset a ha)

variable [DecidableEq φ]

theorem Keeps.readMembers (h : r.Keeps P) : ∀ {ms : Members Json} {seen : List φ} {a : α},
    (∀ m ∈ ms, m.2.Distinct) → P a →
      Gives (fun result => P result.2) (r.readMembers .value (Source.ofMembers ms) seen a)
  | [], _, _, _, ha => gives_ok ha
  | (name, v) :: ms, seen, a, hms, ha => by
    rw [List.forall_mem_cons] at hms
    rw [Source.ofMembers]
    cases hname : r.field? name with
    | some f =>
      by_cases hseen : f ∈ seen
      · rw [readMembers_of_repeated hname hseen]
        exact gives_error _
      · rw [readMembers_of_field hname hseen]
        exact (h.read f v hms.1).bind fun set hset => readMembers h hms.2 (hset a ha)
    | none =>
      cases hkeep : r.keep with
      | some keep =>
        rw [readMembers_of_kept hname hkeep]
        refine (Decode.reads_json v hms.1).bind fun w hw => ?_
        exact readMembers h hms.2 (h.keep keep hkeep name w a hname hw ha)
      | none =>
        rw [readMembers_of_skipped hname hkeep]
        exact (gives_true _).bind fun _ _ => readMembers h hms.2 ha

/-- **What the defaults have and every field keeps, all that is read has.** -/
theorem Keeps.reads (h : r.Keeps P) {default : α} (hdefault : P default) :
    Decode.Reads P (r.decode .value default) := by
  intro v hv
  cases v with
  | object ms =>
    intro a ha
    obtain ⟨seen, hread⟩ := readMembers_of_decode ha
    exact h.readMembers (Json.distinct_object_iff.1 hv).2 hdefault _ hread
  | array vs =>
    change Gives P (if r.positional then _ else _)
    split
    · exact h.readItems (Json.distinct_array_iff.1 hv) hdefault
    · exact gives_error _
  | null | bool | number | string => exact gives_error _

/-- Of members read into a record the value of every field was read. -/
theorem exists_read_of_readMembers_ok : ∀ {ms : Members Json} {seen : List φ} {a : α}
    {result : List φ × α}, r.readMembers .value (Source.ofMembers ms) seen a = .ok result →
      ∀ {name v f}, (name, v) ∈ ms → r.field? name = some f →
        ∃ set, r.read .value f (Source.ofJson v) = .ok set
  | [], _, _, _, _, _, _, _, hmem, _ => absurd hmem List.not_mem_nil
  | (first, w) :: ms, seen, a, result, h, name, v, f, hmem, hf => by
    rw [Source.ofMembers] at h
    cases hfirst : r.field? first with
    | some g =>
      by_cases hseen : g ∈ seen
      · rw [readMembers_of_repeated hfirst hseen] at h
        cases h
      · rw [readMembers_of_field hfirst hseen] at h
        obtain ⟨set, hset, h⟩ := exists_of_bind_ok h
        rcases List.mem_cons.1 hmem with heq | hmem
        · cases heq
          cases hfirst.symm.trans hf
          exact ⟨set, hset⟩
        · exact exists_read_of_readMembers_ok h hmem hf
    | none =>
      have hmem : (name, v) ∈ ms := (List.mem_cons.1 hmem).resolve_left fun heq => by
        cases heq
        cases hfirst.symm.trans hf
      cases hkeep : r.keep with
      | some keep =>
        rw [readMembers_of_kept hfirst hkeep] at h
        obtain ⟨_, -, h⟩ := exists_of_bind_ok h
        exact exists_read_of_readMembers_ok h hmem hf
      | none =>
        rw [readMembers_of_skipped hfirst hkeep] at h
        obtain ⟨_, -, h⟩ := exists_of_bind_ok h
        exact exists_read_of_readMembers_ok h hmem hf

theorem exists_read_of_decode_ok {ms : Members Json} {default a : α}
    (h : r.decode .value default (Source.ofJson (.object ms)) = .ok a) {name : String} {v : Json}
    (hmem : (name, v) ∈ ms) {f : φ} (hf : r.field? name = some f) :
    ∃ set, r.read .value f (Source.ofJson v) = .ok set := by
  obtain ⟨_, hread⟩ := readMembers_of_decode h
  exact exists_read_of_readMembers_ok hread hmem hf

end Record
end Schemata
