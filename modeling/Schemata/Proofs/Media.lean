import Schemata.Description.Decode
import Schemata.Proofs.Folds
import Schemata.Proofs.Reading
/-!
# Media — a text is decoded as the value that it spells

A description may be decoded straight from a text or from a value.  The rules are the same, but not
the levels that may be opened and the levels that are counted; what is read ahead and what is skipped;
and which problems are reported.  None of this decides whether there is a description, or which one: a
text that can be read as a value and repeats no name is laid out as the value is
(`Source.spells_of_toJson`), and two readings of what is laid out as a value agree as long as the
levels suffice for both (`Decode.Alike`, `Description.alike_decode`).
-/
namespace Schemata

/-! ## Texts without repeated names -/

namespace Source

/-- The names that can be read. -/
def names (members : List (Except Flaw String × Source)) : List String :=
  members.filterMap fun m => m.1.toOption

/-- **No object repeats a name**, however deep in what was laid out. -/
inductive Distinct : Source → Prop where
  | null : Distinct .null
  | bool (b : Bool) : Distinct (.bool b)
  | number (x : Option Number) : Distinct (.number x)
  | string (s : Option String) : Distinct (.string s)
  | array {xs : List Source} {ending : Ending} (items : ∀ x ∈ xs, Distinct x) :
    Distinct (.array xs ending)
  | object {xs : List (Except Flaw String × Source)} {ending : Ending} (nodup : (names xs).Nodup)
    (members : ∀ x ∈ xs, Distinct x.2) : Distinct (.object xs ending)
  | unnamed {x : Source} (found : Distinct x) : Distinct (.unnamed x)
  | brokenString (reading skipping : Flaw) : Distinct (.brokenString reading skipping)
  | broken (reading skipping : Flaw) : Distinct (.broken reading skipping)
  | missing : Distinct .missing

mutual

def decideDistinct : (s : Source) → Decidable s.Distinct
  | .null => .isTrue .null
  | .bool b => .isTrue (.bool b)
  | .number x => .isTrue (.number x)
  | .string s => .isTrue (.string s)
  | .array items _ =>
    match decideItems items with
    | .isTrue h => .isTrue (.array h)
    | .isFalse h => .isFalse fun | .array items => h items
  | .object members _ =>
    match decideMembers members with
    | .isTrue h =>
      if hnodup : (names members).Nodup then .isTrue (.object hnodup h)
      else .isFalse fun | .object nodup _ => hnodup nodup
    | .isFalse h => .isFalse fun | .object _ members => h members
  | .unnamed found =>
    match decideDistinct found with
    | .isTrue h => .isTrue (.unnamed h)
    | .isFalse h => .isFalse fun | .unnamed found => h found
  | .brokenString reading skipping => .isTrue (.brokenString reading skipping)
  | .broken reading skipping => .isTrue (.broken reading skipping)
  | .missing => .isTrue .missing

def decideItems : (xs : List Source) → Decidable (∀ x ∈ xs, x.Distinct)
  | [] => .isTrue (List.forall_mem_nil _)
  | x :: xs =>
    match decideDistinct x, decideItems xs with
    | .isTrue h, .isTrue hs => .isTrue (List.forall_mem_cons.2 ⟨h, hs⟩)
    | .isFalse h, _ => .isFalse fun hall => h (List.forall_mem_cons.1 hall).1
    | _, .isFalse hs => .isFalse fun hall => hs (List.forall_mem_cons.1 hall).2

def decideMembers : (xs : List (Except Flaw String × Source)) → Decidable (∀ x ∈ xs, x.2.Distinct)
  | [] => .isTrue (List.forall_mem_nil _)
  | (_, x) :: xs =>
    match decideDistinct x, decideMembers xs with
    | .isTrue h, .isTrue hs => .isTrue (List.forall_mem_cons.2 ⟨h, hs⟩)
    | .isFalse h, _ => .isFalse fun hall => h (List.forall_mem_cons.1 hall).1
    | _, .isFalse hs => .isFalse fun hall => hs (List.forall_mem_cons.1 hall).2

end

instance (s : Source) : Decidable s.Distinct := decideDistinct s

/-- What is laid out as a value is, that repeats no name and that the medium admits. -/
structure Spells (medium : Medium) (s : Source) (v : Json) : Prop where
  eq : s = ofJson v
  distinct : v.Distinct
  admits : medium.Admits v

variable {medium : Medium}

theorem closed_of_check {ending : Ending} {u : Unit} (h : ending.check = .ok u) :
    ending = .closed := by
  cases ending with
  | closed => rfl
  | cut flaw => cases h

theorem spells_items : ∀ {xs : List Source} {vs : List Json},
    (∀ x ∈ xs, ∀ v, x.toJson medium = .ok v → Spells medium x v) →
      toItems medium xs = .ok vs →
        xs = ofItems vs ∧ ∀ v ∈ vs, v.Distinct ∧ medium.Admits v
  | [], _, _, hread => by
    cases hread
    exact ⟨rfl, List.forall_mem_nil _⟩
  | x :: xs, _, h, hread => by
    rw [List.forall_mem_cons] at h
    obtain ⟨v, hv, hread⟩ := exists_ok_of_bind hread
    obtain ⟨vs, hvs, hpure⟩ := exists_ok_of_bind hread
    cases hpure
    have hfirst := h.1 v hv
    obtain ⟨heq, hall⟩ := spells_items h.2 hvs
    refine ⟨?_, List.forall_mem_cons.2 ⟨⟨hfirst.distinct, hfirst.admits⟩, hall⟩⟩
    rw [ofItems, ← hfirst.eq, ← heq]

theorem spells_members : ∀ {xs : List (Except Flaw String × Source)} {before after : Members Json},
    (∀ x ∈ xs, ∀ v, x.2.toJson medium = .ok v → Spells medium x.2 v) →
      toMembers medium before xs = .ok after →
        ∃ ms, xs = ofMembers ms ∧ after = Members.insertAll before ms ∧
          ∀ m ∈ ms, m.2.Distinct ∧ medium.Admits m.2
  | [], _, _, _, hread => by
    cases hread
    exact ⟨[], rfl, rfl, List.forall_mem_nil _⟩
  | (name?, x) :: xs, before, _, h, hread => by
    rw [List.forall_mem_cons] at h
    obtain ⟨name, rfl, hnamed⟩ := exists_ok_of_bind hread
    obtain ⟨v, hv, hrest⟩ := exists_ok_of_bind hnamed
    have hfirst := h.1 v hv
    obtain ⟨ms, heq, hafter, hall⟩ := spells_members h.2 hrest
    refine ⟨(name, v) :: ms, ?_, hafter,
      List.forall_mem_cons.2 ⟨⟨hfirst.distinct, hfirst.admits⟩, hall⟩⟩
    rw [ofMembers, ← heq]
    exact congrArg (fun x => (Except.ok name, x) :: xs) hfirst.eq

theorem names_ofMembers (ms : Members Json) : names (ofMembers ms) = Members.names ms := by
  rw [ofMembers_eq_map, names, List.filterMap_map, Members.names, ← List.filterMap_eq_map]
  rfl

/-- **What can be read and repeats no name is laid out as the value is.** -/
theorem spells_of_toJson {s : Source} (h : s.Distinct) : ∀ {medium : Medium} {v : Json},
    s.toJson medium = .ok v → Spells medium s v := by
  have hscalar : ∀ {medium : Medium} {v : Json}, v.depth = 0 → medium.Admits v := by
    intro medium v hv
    cases medium with
    | value => trivial
    | text levels => exact Nat.le_trans (Nat.le_of_eq hv) (Nat.zero_le levels)
  induction h with
  | null =>
    rintro _ _ ⟨⟩
    exact ⟨rfl, .null, hscalar rfl⟩
  | bool b =>
    rintro _ _ ⟨⟩
    exact ⟨rfl, .bool b, hscalar rfl⟩
  | number x =>
    intro medium v hread
    cases x <;> cases hread
    exact ⟨rfl, .number _, hscalar rfl⟩
  | string s =>
    intro medium v hread
    cases s <;> cases hread
    exact ⟨rfl, .string _, hscalar rfl⟩
  | array _ ih =>
    intro medium v hread
    rw [toJson] at hread
    obtain ⟨inner, henter, hread⟩ := exists_ok_of_bind hread
    obtain ⟨vs, hitems, hread⟩ := exists_ok_of_bind hread
    obtain ⟨_, hcheck, hpure⟩ := exists_ok_of_bind hread
    cases hpure
    obtain ⟨rfl, hall⟩ := spells_items (fun x hx v hv => ih x hx hv) hitems
    refine ⟨?_, .array fun v hv => (hall v hv).1, Medium.admits_array_iff.2 ⟨inner, henter, ?_⟩⟩
    · rw [closed_of_check hcheck, ofJson]
    · exact fun v hv => (hall v hv).2
  | object hnodup _ ih =>
    intro medium v hread
    rw [toJson] at hread
    obtain ⟨inner, henter, hread⟩ := exists_ok_of_bind hread
    obtain ⟨after, hmembers, hread⟩ := exists_ok_of_bind hread
    obtain ⟨_, hcheck, hpure⟩ := exists_ok_of_bind hread
    cases hpure
    obtain ⟨ms, rfl, rfl, hall⟩ := spells_members (fun x hx v hv => ih x hx hv) hmembers
    rw [names_ofMembers] at hnodup
    have hms : Members.insertAll [] ms = ms := Members.ofList_of_nodup hnodup
    rw [hms]
    refine ⟨?_, .object hnodup fun m hm => (hall m hm).1,
      Medium.admits_object_iff.2 ⟨inner, henter, fun m hm => (hall m hm).2⟩⟩
    rw [closed_of_check hcheck, ofJson]
  | unnamed | brokenString | broken | missing =>
    rintro _ _ ⟨⟩

end Source

/-! ## Readings that agree -/

namespace Decoded

variable {α β : Type}

/-- **Two readings agree**: they give the same, or both fail, be it for different reasons. -/
def Agree (x y : Decoded α) : Prop := ∀ a, x = .ok a ↔ y = .ok a

theorem Agree.refl (x : Decoded α) : Agree x x := fun _ => Iff.rfl

theorem agree_error (e e' : DecodeError) : Agree (.error e : Decoded α) (.error e') :=
  fun _ => ⟨nofun, nofun⟩

theorem Agree.bind {x y : Decoded α} {next next' : α → Decoded β} (hxy : Agree x y)
    (hnext : ∀ a, Agree (next a) (next' a)) : Agree (x >>= next) (y >>= next') := by
  intro b
  constructor
  · intro h
    obtain ⟨a, ha, hb⟩ := exists_of_bind_ok h
    rw [bind_of_ok ((hxy a).1 ha)]
    exact (hnext a b).1 hb
  · intro h
    obtain ⟨a, ha, hb⟩ := exists_of_bind_ok h
    rw [bind_of_ok ((hxy a).2 ha)]
    exact (hnext a b).2 hb

theorem Agree.map {x y : Decoded α} (hxy : Agree x y) (g : α → β) : Agree (x.map g) (y.map g) := by
  have hbind := hxy.bind fun a => Agree.refl (.ok (g a))
  cases x <;> cases y <;> exact hbind

theorem agree_mapM {γ : Type} {read read' : γ → Decoded α} : ∀ {xs : List γ},
    (∀ x ∈ xs, Agree (read x) (read' x)) → Agree (xs.mapM read) (xs.mapM read')
  | [], _ => .refl _
  | x :: xs, h => by
    rw [List.forall_mem_cons] at h
    rw [List.mapM_cons, List.mapM_cons]
    exact h.1.bind fun a => (agree_mapM h.2).bind fun as => .refl _

end Decoded

open Decoded (Agree agree_error agree_mapM)

/-- A value that repeats no name, with less than so many levels, which two media admit. -/
structure Json.Fits (levels : Nat) (medium medium' : Medium) (v : Json) : Prop where
  distinct : v.Distinct
  depth : v.depth < levels
  first : medium.Admits v
  second : medium'.Admits v

namespace Json.Fits

variable {k : Nat} {medium medium' : Medium}

theorem mono {j : Nat} {v : Json} (h : Fits j medium medium' v) (hle : j ≤ k) :
    Fits k medium medium' v :=
  ⟨h.distinct, Nat.lt_of_lt_of_le h.depth hle, h.first, h.second⟩

/-- The items of a list fit one level further in. -/
theorem items {vs : List Json} (h : Fits (k + 1) medium medium' (.array vs)) :
    ∃ inner inner', medium.enter = .ok inner ∧ medium'.enter = .ok inner' ∧
      ∀ v ∈ vs, Fits k inner inner' v := by
  obtain ⟨inner, henter, hfirst⟩ := Medium.admits_array_iff.1 h.first
  obtain ⟨inner', henter', hsecond⟩ := Medium.admits_array_iff.1 h.second
  refine ⟨inner, inner', henter, henter', fun v hv => ?_⟩
  have hdepth := Nat.lt_of_lt_of_le (Json.depth_lt_array hv) (Nat.le_of_lt_succ h.depth)
  exact ⟨Json.distinct_array_iff.1 h.distinct v hv, hdepth, hfirst v hv, hsecond v hv⟩

theorem members {ms : Members Json} (h : Fits (k + 1) medium medium' (.object ms)) :
    ∃ inner inner', medium.enter = .ok inner ∧ medium'.enter = .ok inner' ∧
      ∀ m ∈ ms, Fits k inner inner' m.2 := by
  obtain ⟨inner, henter, hfirst⟩ := Medium.admits_object_iff.1 h.first
  obtain ⟨inner', henter', hsecond⟩ := Medium.admits_object_iff.1 h.second
  refine ⟨inner, inner', henter, henter', fun m hm => ?_⟩
  have hdepth := Nat.lt_of_lt_of_le (Json.depth_lt_object hm) (Nat.le_of_lt_succ h.depth)
  exact ⟨(Json.distinct_object_iff.1 h.distinct).2 m hm, hdepth, hfirst m hm, hsecond m hm⟩

end Json.Fits

namespace Decode

variable {α β : Type} {k : Nat} {read read' : Medium → Source → Decoded α}

/-- **Two readers are alike** up to so many levels: they agree on every value with less, whichever
media admit it. -/
def Alike (levels : Nat) (read read' : Medium → Source → Decoded α) : Prop :=
  ∀ ⦃v : Json⦄ ⦃medium medium' : Medium⦄, v.Fits levels medium medium' →
    Agree (read medium (Source.ofJson v)) (read' medium' (Source.ofJson v))

theorem Alike.mono (h : Alike k read read') {j : Nat} (hle : j ≤ k) : Alike j read read' :=
  fun _ _ _ hfits => h (hfits.mono hle)

/-- What does not look at the medium. -/
theorem alike_const (k : Nat) (read : Source → Decoded α) :
    Alike k (fun _ => read) fun _ => read :=
  fun _ _ _ _ => .refl _

theorem alike_json (k : Nat) : Alike k json json := by
  intro v medium medium' hfits
  rw [json_of_admits hfits.distinct hfits.first, json_of_admits hfits.distinct hfits.second]
  exact .refl _

theorem Alike.map (h : Alike k read read') (g : α → β) :
    Alike k (fun m s => do let a ← read m s; return g a)
      fun m s => do let a ← read' m s; return g a :=
  fun _ _ _ hfits => (h hfits).bind fun _ => .refl _

theorem Alike.optional (h : Alike k read read') :
    Alike k (fun m => optional (read m)) fun m => optional (read' m) := by
  intro v medium medium' hfits
  cases v with
  | null => exact .refl _
  | bool | number | string | array | object => exact (h hfits).map some

theorem Alike.sequence (h : Alike k read read') :
    Alike k (fun m => sequence m read) fun m => sequence m read' := by
  intro v medium medium' hfits
  cases v with
  | null | bool | number | string | object => exact .refl _
  | array vs =>
    obtain ⟨inner, inner', henter, henter', hitems⟩ := (hfits.mono (Nat.le_succ k)).items
    dsimp only
    rw [sequence_of_enter henter, sequence_of_enter henter']
    refine agree_mapM fun x hx => ?_
    obtain ⟨v, hv, rfl⟩ := List.mem_map.1 hx
    exact h (hitems v hv)

theorem Alike.mapping (h : Alike k read read') (expected : String) :
    Alike k (fun m => mapping m expected read) fun m => mapping m expected read' := by
  intro v medium medium' hfits
  cases v with
  | null | bool | number | string | array => exact .refl _
  | object ms =>
    obtain ⟨inner, inner', henter, henter', hmembers⟩ := (hfits.mono (Nat.le_succ k)).members
    dsimp only
    rw [mapping_of_enter henter, mapping_of_enter henter']
    exact agree_mapM fun m hm => (h (hmembers m hm)).bind fun _ => .refl _

theorem alike_members (k : Nat) : Alike k members members := by
  intro v medium medium' hfits
  cases v with
  | null | bool | number | string | array => exact .refl _
  | object ms =>
    rw [members_of_admits hfits.distinct hfits.first, members_of_admits hfits.distinct hfits.second]
    exact .refl _

/-- An object stands for a choice if it has one member only, under the name of what is chosen. -/
theorem agree_choice {known : String → Decoded α} {ms : Members Json} {medium : Medium}
    (hadmits : medium.Admits (.object ms)) :
    Agree (choice medium known (Source.ofJson (.object ms)))
      (choice .value known (Source.ofJson (.object ms))) := by
  cases medium with
  | value => exact .refl _
  | text levels =>
    obtain ⟨inner, henter, -⟩ := Medium.admits_object_iff.1 hadmits
    change Agree (do let _ ← Decoded.ofRead (Medium.text levels).enter; _) _
    rw [henter]
    match ms with
    | [] => exact agree_error _ _
    | [(name, v)] => exact .refl _
    | (name, v) :: m :: ms =>
      change Agree (known name >>= fun a => unit (Source.ofJson v) >>= fun _ => .error _) (.error _)
      cases known name with
      | error => exact agree_error _ _
      | ok a => cases v <;> exact agree_error _ _

theorem alike_choice (k : Nat) (known : String → Decoded α) :
    Alike k (fun m => choice m known) fun m => choice m known := by
  intro v medium medium' hfits
  cases v with
  | string => exact .refl _
  | null | bool | number | array =>
    cases medium <;> cases medium' <;> first | exact .refl _ | exact agree_error _ _
  | object ms =>
    intro a
    exact (agree_choice hfits.first a).trans (agree_choice hfits.second a).symm

end Decode

/-! ## Records -/

namespace Record

variable {φ α : Type} {k : Nat} {medium medium' : Medium}

/-- The same record, with its fields read in another way. -/
def withRead (r : Record φ α) (read : Medium → φ → Source → Decoded (α → α)) : Record φ α :=
  { r with read }

variable {r : Record φ α} {read : Medium → φ → Source → Decoded (α → α)}

theorem agree_readItems
    (hread : ∀ f, Decode.Alike k (fun m => r.read m f) fun m => read m f) :
    ∀ (fs : List φ) {vs : List Json}, (∀ v ∈ vs, v.Fits k medium medium') → ∀ (index : Nat) (a : α),
      Agree (r.readItems medium .closed fs (Source.ofItems vs) index a)
        ((r.withRead read).readItems medium' .closed fs (Source.ofItems vs) index a)
  | [], [], _, _, _ => .refl _
  | [], v :: vs, _, _, _ => by
    -- A value and a text have different names for what is too much.
    cases medium <;> cases medium' <;> exact agree_error _ _
  | f :: fs, [], hfits, index, a => by
    change Agree
      (if r.isRequired f then .error _ else r.readItems medium .closed fs [] (index + 1) a)
      (if r.isRequired f then .error _ else
        (r.withRead read).readItems medium' .closed fs [] (index + 1) a)
    split
    · exact agree_error _ _
    · exact agree_readItems hread fs hfits (index + 1) a
  | f :: fs, v :: vs, hfits, index, a => by
    rw [List.forall_mem_cons] at hfits
    exact (hread f hfits.1).bind fun set => agree_readItems hread fs hfits.2 _ _

variable [DecidableEq φ]

theorem agree_readMembers
    (hread : ∀ f, Decode.Alike k (fun m => r.read m f) fun m => read m f) :
    ∀ {ms : Members Json}, (∀ m ∈ ms, m.2.Fits k medium medium') → ∀ (seen : List φ) (a : α),
      Agree (r.readMembers medium (Source.ofMembers ms) seen a)
        ((r.withRead read).readMembers medium' (Source.ofMembers ms) seen a)
  | [], _, _, _ => .refl _
  | (name, v) :: ms, hfits, seen, a => by
    rw [List.forall_mem_cons] at hfits
    rw [Source.ofMembers]
    cases hname : r.field? name with
    | some f =>
      have hname' : (r.withRead read).field? name = some f := hname
      by_cases hseen : f ∈ seen
      · rw [readMembers_of_repeated hname hseen, readMembers_of_repeated hname' hseen]
        exact agree_error _ _
      · rw [readMembers_of_field hname hseen, readMembers_of_field hname' hseen]
        exact (hread f hfits.1).bind fun set => agree_readMembers hread hfits.2 _ _
    | none =>
      have hname' : (r.withRead read).field? name = none := hname
      cases hkeep : r.keep with
      | some keep =>
        have hkeep' : (r.withRead read).keep = some keep := hkeep
        rw [readMembers_of_kept hname hkeep, readMembers_of_kept hname' hkeep']
        exact (Decode.alike_json k hfits.1).bind fun value => agree_readMembers hread hfits.2 _ _
      | none =>
        have hkeep' : (r.withRead read).keep = none := hkeep
        rw [readMembers_of_skipped hname hkeep, readMembers_of_skipped hname' hkeep']
        exact (Agree.refl _).bind fun _ => agree_readMembers hread hfits.2 _ _

/-- **Records are alike if their fields are**, one level further out. -/
theorem alike_decode_withRead
    (hread : ∀ f, Decode.Alike k (fun m => r.read m f) fun m => read m f) (default : α) :
    Decode.Alike (k + 1) (fun m => r.decode m default) fun m => (r.withRead read).decode m default := by
  intro v medium medium' hfits
  cases v with
  | null | bool | number | string => exact .refl _
  | object ms =>
    obtain ⟨inner, inner', henter, henter', hmembers⟩ := hfits.members
    dsimp only
    rw [Source.ofJson, decode, decode, henter, henter']
    exact (agree_readMembers hread hmembers [] default).bind fun _ => .refl _
  | array vs =>
    obtain ⟨inner, inner', henter, henter', hitems⟩ := hfits.items
    dsimp only
    rw [Source.ofJson, decode, decode, henter, henter']
    change Agree (if r.positional then _ else _) (if r.positional then _ else _)
    split
    · exact agree_readItems hread r.fields hitems 0 default
    · exact .refl _

/-- The media do not matter to a record if they do not matter to its fields. -/
theorem alike_decode (hread : ∀ f, Decode.Alike k (fun m => r.read m f) fun m => r.read m f)
    (default : α) : Decode.Alike k (fun m => r.decode m default) fun m => r.decode m default :=
  (alike_decode_withRead hread default).mono (Nat.le_succ k)

end Record

/-! ## Descriptions -/

open Decode (Alike alike_const alike_json alike_members alike_choice)

namespace Rule

theorem alike_decode (k : Nat) (default : Rule) :
    Alike k (fun m => record.decode m default) fun m => record.decode m default := by
  refine Record.alike_decode (fun f => ?_) default
  cases f with
  | name => exact (alike_const k Decode.string).map _
  | arg => exact (alike_json k).map _

end Rule

namespace Flags

theorem alike_switch (k : Nat) : Alike k switch switch :=
  fun _ _ _ hfits => (alike_json k hfits).map Json.truthy

theorem alike_decode (k : Nat) (default : Flags) :
    Alike k (fun m => record.decode m default) fun m => record.decode m default := by
  refine Record.alike_decode (fun f => ?_) default
  cases f with
  | presence => exact (alike_choice k _).optional.map _
  | default => exact (alike_json k).map _
  | allowUnknown => exact (alike_const k (Decode.optional Decode.boolean)).map _
  | encoding | letterCase => exact (alike_const k (Decode.optional Decode.string)).map _
  | allowOnly | sparse | timestamp | truncate | trim | normalize | insensitive | byteAligned =>
    exact (alike_switch k).map _

end Flags

/-- Lists of texts. -/
theorem Decode.alike_strings (k : Nat) :
    Alike k (fun m => sequence m fun _ => string) fun m => sequence m fun _ => string :=
  (alike_const k string).sequence

namespace Dependency

theorem alike_decode (k : Nat) (default : Dependency) :
    Alike k (fun m => record.decode m default) fun m => record.decode m default := by
  refine Record.alike_decode (fun f => ?_) default
  cases f with
  | relation => exact (alike_const k Decode.string).map _
  | key => exact (alike_const k (Decode.optional Decode.string)).map _
  | peers => exact (Decode.alike_strings k).map _

end Dependency

variable {k : Nat} {below below' : Medium → Source → Decoded Description}

theorem PatternRule.alike_decode (h : Alike k below below') (default : PatternRule Description) :
    Alike k (fun m => (record below).decode m default) fun m => (record below').decode m default := by
  have hread : ∀ f, Alike k (fun m => (record below).read m f) fun m => (record below').read m f := by
    intro f
    cases f with
    | regex => exact (alike_const k (Decode.optional Decode.string)).map _
    | schema => exact h.optional.map _
    | rule => exact h.map _
  exact (Record.alike_decode_withRead hread default).mono (Nat.le_succ k)

/-- A branch is read as a value first, and then decoded from that. -/
theorem Alternative.alike_ofJson (h : Alike k below below') :
    Alike k (fun m s => Decode.json m s >>= ofJson (below .value))
      fun m s => Decode.json m s >>= ofJson (below' .value) := by
  intro v medium medium' hfits
  dsimp only
  rw [Decode.json_of_admits hfits.distinct hfits.first,
    Decode.json_of_admits hfits.distinct hfits.second]
  change Agree (ofJson (below .value) v) (ofJson (below' .value) v)
  unfold ofJson
  cases v.members? with
  | none => exact .refl _
  | some ms =>
    dsimp only
    split
    · have hvalue : v.Fits k .value .value := ⟨hfits.distinct, hfits.depth, trivial, trivial⟩
      exact (h hvalue).map schema
    · exact .refl _

namespace Description

theorem alike_read (h : Alike k below below') (f : Field) :
    Alike k (fun m => (record below).read m f) fun m => (record below').read m f := by
  have htexts := (Decode.alike_strings k).optional
  have hvalues := (alike_json k).sequence
  have htext := alike_const k (Decode.optional Decode.string)
  cases f with
  | typeName => exact (alike_const k Decode.string).map _
  | rules => exact (Rule.alike_decode k _).sequence.map _
  | flags => exact (Flags.alike_decode k _).map _
  | valids => exact hvalues.map _
  | metas => exact (alike_members k).sequence.optional.map _
  | notes | tags => exact htexts.map _
  | unit | label | description => exact htext.map _
  | examples | truthy | falsy => exact hvalues.optional.map _
  | items | orderedItems => exact h.sequence.optional.map _
  | children => exact (h.mapping childrenTitle).optional.map _
  | patterns => exact (PatternRule.alike_decode h _).sequence.optional.map _
  | dependencies => exact (Dependency.alike_decode k _).sequence.optional.map _
  | alternatives => exact (Alternative.alike_ofJson h).sequence.optional.map _

/-- **Descriptions are read alike**, from whichever medium and with however many levels, if these are
enough. -/
theorem alike_decode : ∀ n n' : Nat, Alike (min n n') (decode n) (decode n')
  | 0, n' => fun _ _ _ hfits => absurd hfits.depth (by simp)
  | n + 1, 0 => fun _ _ _ hfits => absurd hfits.depth (by simp)
  | n + 1, n' + 1 => by
    rw [Nat.add_min_add_right]
    exact Record.alike_decode_withRead (fun f => alike_read (alike_decode n n') f) {}

/-- **A description is decoded from a text if and only if it is decoded from the value of the text**,
which can be read and repeats no name. -/
theorem ofText_iff_ofJson {text : String} {v : Json} (hread : Json.read text = .ok v)
    (hdistinct : (SourceText.ofString text).root.Distinct) (d : Description) :
    ofText text = .ok d ↔ ofJson v = .ok d := by
  obtain ⟨w, hw, hend⟩ := exists_ok_of_bind hread
  obtain ⟨_, hcheck, hpure⟩ := exists_ok_of_bind hend
  cases hpure
  have hspells := Source.spells_of_toJson hdistinct hw
  have hdepth : v.depth ≤ Medium.levelLimit := hspells.admits
  have hfits : v.Fits (min (Medium.levelLimit + 2) (v.depth + 1)) (.text Medium.levelLimit) .value :=
    ⟨hspells.distinct, by omega, hspells.admits, trivial⟩
  rw [ofJson, ← alike_decode _ _ hfits d, ofText, hspells.eq, hcheck]
  exact Iff.of_eq (congrArg (· = Except.ok d) (bind_pure (m := Decoded) _))

/-- A flag under its other name and one without a meaning, a field that is null and one that is not
known, a rule as an array, a child and a branch. -/
theorem ofText_iff_ofJson_mixed :
    let text :=
      "\x7b\"type\":\"a\",\"unit\":null,\"more\":[],\"flags\":\x7b\"only\":1,\"x\":2\x7d,\"rules\":[[\"y\"]]," ++
      "\"children\":\x7b\"z\":\x7b\"type\":\"b\"\x7d\x7d,\"alternatives\":[\x7b\"is\":1\x7d]\x7d"
    let one : Json := .number (.natural 1)
    let v : Json := .object
      [("type", .string "a"), ("unit", .null), ("more", .array []),
       ("flags", .object [("only", one), ("x", .number (.natural 2))]),
       ("rules", .array [.array [.string "y"]]),
       ("children", .object [("z", .object [("type", .string "b")])]),
       ("alternatives", .array [.object [("is", one)]])]
    let d : Description :=
      { typeName := "a", rules := [{ name := "y" }]
        flags := { allowOnly := true, other := [("x", .number (.natural 2))] }
        children := some [("z", { typeName := "b" })]
        alternatives := some [.conditional { is := some one }] }
    Json.read text = .ok v ∧ (SourceText.ofString text).root.Distinct ∧
      ofJson v = .ok d ∧ ofText text = .ok d := by
  intro text one v d
  have hread : Json.read text = .ok v := by decide +kernel
  have hdistinct : (SourceText.ofString text).root.Distinct := by decide +kernel
  have hvalue : ofJson v = .ok d := rfl
  exact ⟨hread, hdistinct, hvalue, (ofText_iff_ofJson hread hdistinct d).2 hvalue⟩

end Description
end Schemata
