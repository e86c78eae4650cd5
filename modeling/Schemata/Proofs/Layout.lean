import Schemata.Fragment.Edit
import Schemata.Proofs.Plain
import Schemata.Proofs.Unnamed
/-!
# Layout — the lines of a fragment

A fragment remembers the place of its bag as a number: how many keywords stand before it.  What is
written can be said without a number.  A *layout* is the list of the written lines, each a keyword or
the bag; a keyword that is set is changed where it stands or put at the end, a keyword that is removed
takes its line away, and the bag is put at the end when it is created and taken away when the last thing
is taken out of it.

Every edit does to the layout of a fragment what it says (`Fragment.layout_apply`), because the number
keeps up with each change while there is a bag (`Fragment.Sound`); while there is none it may be anything,
and the next bag sets it.  So after any edits the fragment is written as the layout that went through the
same edits (`Fragment.toJson_applyAll`).
-/
namespace Schemata

/-! ## Distinct names -/

namespace Members

variable {α : Type} {name : String}

/-- Inserting a name that is there changes each member that has it, which is one. -/
theorem insert_eq_map (value : α) : ∀ {ms : Members α}, (names ms).Nodup → name ∈ names ms →
    insert ms name value = ms.map fun m => if m.1 = name then (name, value) else m
  | [], _, h => absurd h List.not_mem_nil
  | (n, v) :: ms, hnodup, h => by
    have hnodup := List.nodup_cons.1 hnodup
    rw [insert, List.map_cons]
    by_cases hn : n = name
    · subst hn
      have hrest : (ms.map fun m => if m.1 = n then (n, value) else m) = ms.map id :=
        List.map_congr_left fun m hm => if_neg fun he => hnodup.1 (List.mem_map.2 ⟨m, hm, he⟩)
      rw [if_pos rfl, if_pos rfl, hrest, List.map_id]
    · have h : name ∈ names ms := (List.mem_cons.1 h).resolve_left (Ne.symm hn)
      rw [if_neg hn, if_neg hn, insert_eq_map value hnodup.2 h]

theorem filter_of_not_mem {ms : Members α} (h : name ∉ names ms) :
    (ms.filter fun m => m.1 ≠ name) = ms :=
  List.filter_eq_self.2 fun _ hm => decide_eq_true fun he => h (he ▸ List.mem_map_of_mem hm)

theorem erase_eq_filter : ∀ {ms : Members α}, (names ms).Nodup →
    erase ms name = ms.filter fun m => m.1 ≠ name
  | [], _ => rfl
  | (n, v) :: ms, hnodup => by
    have hnodup := List.nodup_cons.1 hnodup
    rw [erase]
    by_cases hn : n = name
    · subst hn
      rw [if_pos rfl, List.filter_cons_of_neg (by simp), filter_of_not_mem hnodup.1]
    · rw [if_neg hn, List.filter_cons_of_pos (by simpa using hn), erase_eq_filter hnodup.2]

theorem position?_eq_none_iff : ∀ {ms : Members α}, position? ms name = none ↔ name ∉ names ms
  | [] => by simp [position?, names]
  | (n, v) :: ms => by
    rw [position?]
    by_cases hn : n = name
    · simp [hn, names]
    · rw [if_neg hn, Option.map_eq_none_iff, position?_eq_none_iff]
      simp [names, Ne.symm hn]

/-- A name stands before a place if and only if its position says so. -/
theorem mem_take_iff : ∀ {ms : Members α} {i : Nat}, position? ms name = some i →
    ∀ place, name ∈ names (ms.take place) ↔ i < place
  | [], _, h, _ => by cases h
  | (n, v) :: ms, i, h, place => by
    rw [position?] at h
    cases place with
    | zero => simp [names]
    | succ place =>
      by_cases hn : n = name
      · rw [if_pos hn] at h
        cases h
        simp [names, hn]
      · rw [if_neg hn] at h
        obtain ⟨j, hj, rfl⟩ := Option.map_eq_some_iff.1 h
        have ih := mem_take_iff hj place
        rw [names] at ih
        rw [List.take_succ_cons, names, List.map_cons, List.mem_cons, or_iff_right (Ne.symm hn), ih]
        exact Nat.succ_lt_succ_iff.symm

/-- One line is taken away. -/
theorem length_filter_of_mem : ∀ {ms : Members α}, (names ms).Nodup → name ∈ names ms →
    (ms.filter fun m => m.1 ≠ name).length + 1 = ms.length
  | [], _, h => absurd h List.not_mem_nil
  | (n, v) :: ms, hnodup, h => by
    have hnodup := List.nodup_cons.1 hnodup
    by_cases hn : n = name
    · subst hn
      rw [List.filter_cons_of_neg (by simp), filter_of_not_mem hnodup.1, List.length_cons]
    · have h : name ∈ names ms := (List.mem_cons.1 h).resolve_left (Ne.symm hn)
      rw [List.filter_cons_of_pos (by simpa using hn), List.length_cons, List.length_cons,
        length_filter_of_mem hnodup.2 h]

/-- Before a place stands one line less, if the line that is taken away stood there. -/
theorem length_filter_take {ms : Members α} (hnodup : (names ms).Nodup) {i : Nat}
    (hi : position? ms name = some i) {place : Nat} (hplace : place ≤ ms.length) :
    ((ms.take place).filter fun m => m.1 ≠ name).length = if i < place then place - 1 else place := by
  have htaken : (ms.take place).length = place := List.length_take_of_le hplace
  split
  · rename_i hbefore
    have hone := length_filter_of_mem (hnodup.sublist ((List.take_sublist _ _).map Prod.fst))
      ((mem_take_iff hi place).2 hbefore)
    omega
  · rename_i hbefore
    rw [filter_of_not_mem (mt (mem_take_iff hi place).1 hbefore), htaken]

end Members

/-! ## Layouts -/

/-- A line of a written fragment. -/
inductive Line where
  | keyword (name : String) (value : Json)
  | bag (b : Bag)

namespace Line

def ofMember (m : String × Json) : Line := keyword m.1 m.2

/-- The member that a line is written as. -/
def member : Line → String × Json
  | keyword name value => (name, value)
  | bag b => (Fragment.bagKey, b.toJson)

def sets (name : String) : Line → Bool
  | keyword n _ => n = name
  | bag _ => false

def isBag : Line → Bool
  | keyword _ _ => false
  | bag _ => true

def isEmptyBag : Line → Bool
  | keyword _ _ => false
  | bag b => b.isEmpty

def mapBag (change : Bag → Bag) : Line → Line
  | keyword name value => keyword name value
  | bag b => bag (change b)

end Line

/-- **The written lines of a fragment**, in order. -/
abbrev Layout : Type := List Line

namespace Layout

/-- Set a keyword: on its line when it has one, on a new line at the end when it has not. -/
def insert (ls : Layout) (name : String) (value : Json) : Layout :=
  if ls.any (Line.sets name) then ls.map fun l => if l.sets name then .keyword name value else l
  else ls ++ [.keyword name value]

def remove (ls : Layout) (name : String) : Layout := ls.filter fun l => !l.sets name

/-- The bag has a line: the one it has, or a new one at the end. -/
def openBag (ls : Layout) : Layout := if ls.any Line.isBag then ls else ls ++ [.bag {}]

def modifyBag (ls : Layout) (change : Bag → Bag) : Layout := ls.openBag.map (Line.mapBag change)

/-- Take something out of the bag; its line goes when nothing is left in it. -/
def takeFromBag (ls : Layout) (take : Bag → Bag) : Layout :=
  (ls.map (Line.mapBag take)).filter fun l => !l.isEmptyBag

/-- What an edit does to a layout. -/
def apply (ls : Layout) : Fragment.Edit → Layout
  | .insert name value => ls.insert name value
  | .remove name => ls.remove name
  | .takeExtract => ls.takeFromBag fun b => b.takeExtract.2
  | .takeTerm => ls.takeFromBag fun b => b.takeTerm.2
  | .openBag => ls.openBag
  | .bag edit => ls.modifyBag edit.apply

def applyAll (ls : Layout) (edits : List Fragment.Edit) : Layout := edits.foldl apply ls

def toMembers (ls : Layout) : Members Json := ls.map Line.member

def toJson (ls : Layout) : Json := .object ls.toMembers

end Layout

/-! ## The layout of a fragment -/

namespace Fragment

def bagLines (b : Option Bag) : Layout := (b.map Line.bag).toList

/-- **The layout of a fragment.** -/
def layout (f : Fragment) : Layout :=
  (f.keywords.take f.slot).map Line.ofMember ++ bagLines f.bag ++
    (f.keywords.drop f.slot).map Line.ofMember

/-- **The place of the bag is right**, the keywords are distinct, and none has the name of the bag. -/
structure Sound (f : Fragment) : Prop where
  nodup : (Members.names f.keywords).Nodup
  unused : bagKey ∉ Members.names f.keywords
  slot : f.bag ≠ none → f.slot ≤ f.keywords.length

theorem sound_empty : Sound {} := ⟨List.nodup_nil, List.not_mem_nil, fun h => absurd rfl h⟩

variable {f : Fragment}

theorem layout_of_no_bag (h : f.bag = none) : f.layout = f.keywords.map Line.ofMember := by
  rw [layout, h, bagLines, Option.map_none, Option.toList_none, List.append_nil, ← List.map_append,
    List.take_append_drop]

/-- **A fragment is written line by line.** -/
theorem Sound.toMembers_layout (h : f.Sound) : f.toMembers = f.layout.toMembers := by
  have hmember : Line.member ∘ Line.ofMember = id := rfl
  rw [toMembers_eq h.nodup h.unused, layout, Layout.toMembers, List.map_append, List.map_append,
    List.map_map, List.map_map, hmember, List.map_id, List.map_id]
  cases f.bag <;> rfl

theorem any_sets_layout (name : String) :
    f.layout.any (Line.sets name) = true ↔ name ∈ Members.names f.keywords := by
  have hkeywords : ∀ ms : Members Json,
      (ms.map Line.ofMember).any (Line.sets name) = true ↔ name ∈ Members.names ms := fun ms => by
    simp [Line.ofMember, Line.sets, Members.names]
  have hbag : (bagLines f.bag).any (Line.sets name) = false := by
    cases f.bag <;> rfl
  rw [layout, List.any_append, List.any_append, hbag, Bool.or_false, Bool.or_eq_true, hkeywords,
    hkeywords, ← List.mem_append, Members.names, Members.names, ← List.map_append,
    List.take_append_drop]
  rfl

theorem any_isBag_layout : f.layout.any Line.isBag = f.bag.isSome := by
  have hkeywords : ∀ ms : Members Json, (ms.map Line.ofMember).any Line.isBag = false := fun ms => by
    simp [Line.ofMember, Line.isBag]
  rw [layout, List.any_append, List.any_append, hkeywords, hkeywords]
  cases f.bag <;> rfl

/-! ## What an edit does -/

theorem Sound.layout_insert (h : f.Sound) (name : String) (value : Json) :
    (f.insert name value).layout = f.layout.insert name value := by
  unfold Layout.insert
  by_cases hmem : name ∈ Members.names f.keywords
  · have hline : ∀ ms : Members Json,
        (ms.map fun m => if m.1 = name then (name, value) else m).map Line.ofMember =
          (ms.map Line.ofMember).map fun l =>
            if l.sets name = true then .keyword name value else l := fun ms => by
      rw [List.map_map, List.map_map]
      refine List.map_congr_left fun m _ => ?_
      by_cases hm : m.1 = name <;> simp [Line.ofMember, Line.sets, hm]
    have hbag : (bagLines f.bag).map (fun l =>
        if l.sets name = true then Line.keyword name value else l) = bagLines f.bag := by
      cases f.bag <;> rfl
    rw [if_pos ((any_sets_layout name).2 hmem), layout, insert,
      Members.insert_eq_map value h.nodup hmem]
    -- Every keyword stays where it was, so the bag does.
    rw [← List.map_take, ← List.map_drop, hline, hline, layout, List.map_append, List.map_append,
      hbag]
  · rw [if_neg (mt (any_sets_layout name).1 hmem), layout, insert,
      Members.insert_of_not_mem name value _ hmem, layout]
    cases hb : f.bag with
    | none =>
      rw [bagLines, Option.map_none, Option.toList_none, List.append_nil, List.append_nil,
        ← List.map_append, ← List.map_append, List.take_append_drop, List.take_append_drop,
        List.map_append]
      rfl
    | some b =>
      have hslot := h.slot (hb ▸ Option.some_ne_none b)
      rw [List.take_append_of_le_length hslot, List.drop_append_of_le_length hslot, List.map_append,
        ← List.append_assoc]
      rfl

/-- Removing a keyword before the bag moves the bag, and removing another does not. -/
theorem Sound.layout_remove (h : f.Sound) (name : String) :
    (f.remove name).layout = f.layout.remove name := by
  have hline : ∀ ms : Members Json, (ms.filter fun m => m.1 ≠ name).map Line.ofMember =
      (ms.map Line.ofMember).filter fun l => !l.sets name := fun ms => by
    rw [List.filter_map]
    refine congrArg _ (List.filter_congr fun m _ => ?_)
    simp [Line.ofMember, Line.sets]
  have hbag : (bagLines f.bag).filter (fun l => !l.sets name) = bagLines f.bag := by
    cases f.bag <;> rfl
  rw [Layout.remove, layout, layout, List.filter_append, List.filter_append, hbag, ← hline, ← hline,
    remove]
  cases hi : Members.position? f.keywords name with
  | none =>
    have hname := Members.position?_eq_none_iff.1 hi
    have hpart : ∀ ms : Members Json, ms.Sublist f.keywords → name ∉ Members.names ms :=
      fun ms hms hmem => hname ((hms.map Prod.fst).subset hmem)
    rw [Members.filter_of_not_mem (hpart _ (List.take_sublist _ _)),
      Members.filter_of_not_mem (hpart _ (List.drop_sublist _ _))]
  | some i =>
    dsimp only
    rw [Members.erase_eq_filter h.nodup]
    have hsplit : (f.keywords.filter fun m => m.1 ≠ name) =
        ((f.keywords.take f.slot).filter fun m => m.1 ≠ name) ++
          (f.keywords.drop f.slot).filter fun m => m.1 ≠ name := by
      rw [← List.filter_append, List.take_append_drop]
    cases hb : f.bag with
    | none =>
      rw [bagLines, Option.map_none, Option.toList_none, List.append_nil, List.append_nil,
        ← List.map_append, ← List.map_append, List.take_append_drop, hsplit]
    | some b =>
      have hslot := h.slot (hb ▸ Option.some_ne_none b)
      have hlength := Members.length_filter_take h.nodup hi hslot
      rw [hsplit, List.take_left' hlength, List.drop_left' hlength]

theorem layout_openBag (f : Fragment) : f.openBag.layout = f.layout.openBag := by
  rw [Layout.openBag, any_isBag_layout, openBag]
  cases hb : f.bag with
  | some b => rfl
  | none =>
    rw [Option.isSome_none, if_neg Bool.false_ne_true, layout_of_no_bag hb, layout]
    simp [bagLines]

theorem layout_mapBag (f : Fragment) (change : Bag → Bag) :
    ({ f with bag := f.bag.map change } : Fragment).layout =
      f.layout.map (Line.mapBag change) := by
  have hkeyword : Line.mapBag change ∘ Line.ofMember = Line.ofMember := rfl
  rw [layout, layout, List.map_append, List.map_append, List.map_map, List.map_map, hkeyword]
  cases f.bag <;> rfl

theorem layout_modifyBag (f : Fragment) (change : Bag → Bag) :
    (f.modifyBag change).layout = f.layout.modifyBag change := by
  rw [Layout.modifyBag, ← layout_openBag]
  exact layout_mapBag f.openBag change

theorem layout_takeFromBag (f : Fragment) (take : Bag → Bag) :
    ({ f with bag := (f.bag.map take).filter fun b => !b.isEmpty } : Fragment).layout =
      f.layout.takeFromBag take := by
  have hkeywords : ∀ ms : Members Json,
      ((ms.map Line.ofMember).filter fun l => !l.isEmptyBag) = ms.map Line.ofMember := fun ms => by
    refine List.filter_eq_self.2 fun l hl => ?_
    obtain ⟨m, -, rfl⟩ := List.mem_map.1 hl
    rfl
  rw [Layout.takeFromBag, ← layout_mapBag, layout, layout, List.filter_append, List.filter_append,
    hkeywords, hkeywords]
  cases f.bag with
  | none => rfl
  | some b => cases hb : (take b).isEmpty <;> simp [bagLines, Option.filter, Line.isEmptyBag, hb]

/-- An edit that leaves the name of the bag to the bag. -/
def Edit.Regular (e : Edit) : Prop := ∀ value, e ≠ .insert bagKey value

/-- **An edit does to the layout what it says.** -/
theorem Sound.layout_apply (h : f.Sound) : ∀ e : Edit, (e.apply f).layout = f.layout.apply e
  | .insert name value => h.layout_insert name value
  | .remove name => h.layout_remove name
  | .takeExtract => by
    rw [Edit.apply, takeExtract_eq, layout_takeFromBag]
    rfl
  | .takeTerm => by
    rw [Edit.apply, takeTerm_eq, layout_takeFromBag]
    rfl
  | .openBag => layout_openBag f
  | .bag edit => layout_modifyBag f edit.apply

/-! ## The place of the bag keeps up -/

theorem Sound.insert (h : f.Sound) {name : String} (hname : name ≠ bagKey) (value : Json) :
    (f.insert name value).Sound := by
  have hnames := Members.names_insert f.keywords name value
  refine ⟨Members.nodup_insert h.nodup name value, fun hmem => ?_, fun hbag => ?_⟩
  · change bagKey ∈ Members.names (Members.insert f.keywords name value) at hmem
    rw [hnames] at hmem
    split at hmem
    · exact h.unused hmem
    · rcases List.mem_append.1 hmem with hmem | hmem
      · exact h.unused hmem
      · exact hname (List.mem_singleton.1 hmem).symm
  · have hlength := congrArg List.length hnames
    have hslot := h.slot hbag
    change f.slot ≤ (Members.insert f.keywords name value).length
    rw [Members.names, List.length_map] at hlength
    rw [hlength]
    split <;> simp [Members.names] <;> omega

/-- The place is counted down only when it is not the first. -/
theorem slot_remove {name : String} {i : Nat} (hi : Members.position? f.keywords name = some i) :
    (f.remove name).slot = if i < f.slot then f.slot - 1 else f.slot := by
  rw [remove, hi]

theorem Sound.remove (h : f.Sound) (name : String) : (f.remove name).Sound := by
  unfold Fragment.remove
  cases hi : Members.position? f.keywords name with
  | none => exact h
  | some i =>
    have hmem : name ∈ Members.names f.keywords := by
      by_contra hmem
      rw [Members.position?_eq_none_iff.2 hmem] at hi
      cases hi
    have herase : Members.erase f.keywords name = _ := Members.erase_eq_filter h.nodup
    have hsublist : (Members.erase f.keywords name).Sublist f.keywords :=
      herase ▸ List.filter_sublist
    refine ⟨h.nodup.sublist (hsublist.map _), fun hkey => h.unused ((hsublist.map _).subset hkey),
      fun hbag => ?_⟩
    have hslot := h.slot hbag
    have hlength := Members.length_filter_of_mem h.nodup hmem
    have hall := (Members.mem_take_iff hi f.keywords.length).1 (List.take_length ▸ hmem)
    dsimp only
    rw [herase]
    split <;> omega

theorem Sound.setBag (h : f.Sound) (bag : Option Bag) (hbag : bag ≠ none → f.bag ≠ none) :
    Sound { f with bag } :=
  ⟨h.nodup, h.unused, fun hnone => h.slot (hbag hnone)⟩

theorem Sound.openBag (h : f.Sound) : f.openBag.Sound := by
  unfold Fragment.openBag
  cases f.bag with
  | some b => exact h
  | none => exact ⟨h.nodup, h.unused, fun _ => Nat.le_refl _⟩

theorem Sound.modifyBag (h : f.Sound) (change : Bag → Bag) : (f.modifyBag change).Sound :=
  h.openBag.setBag _ fun hbag => by simpa using hbag

theorem Sound.takeFromBag (h : f.Sound) (take : Bag → Bag) :
    Sound { f with bag := (f.bag.map take).filter fun b => !b.isEmpty } :=
  h.setBag _ fun hbag hnone => hbag (by rw [hnone]; rfl)

theorem Sound.apply (h : f.Sound) : ∀ {e : Edit}, e.Regular → (e.apply f).Sound
  | .insert _ value, he => h.insert (fun hname => he value (hname ▸ rfl)) value
  | .remove name, _ => h.remove name
  | .takeExtract, _ => by
    rw [Edit.apply, takeExtract_eq]
    exact h.takeFromBag _
  | .takeTerm, _ => by
    rw [Edit.apply, takeTerm_eq]
    exact h.takeFromBag _
  | .openBag, _ => h.openBag
  | .bag edit, _ => h.modifyBag edit.apply

/-- After any edits the layout is the one that went through the same edits. -/
theorem Sound.applyAll : ∀ {edits : List Edit} {f : Fragment}, f.Sound → (∀ e ∈ edits, e.Regular) →
    (Edit.applyAll edits f).Sound ∧ (Edit.applyAll edits f).layout = f.layout.applyAll edits
  | [], _, h, _ => ⟨h, rfl⟩
  | e :: edits, f, h, hedits => by
    rw [List.forall_mem_cons] at hedits
    obtain ⟨hsound, hlayout⟩ := Sound.applyAll (h.apply hedits.1) hedits.2
    refine ⟨hsound, ?_⟩
    rw [h.layout_apply e] at hlayout
    exact hlayout

/-- A bag that is created is written behind everything else. -/
theorem Sound.toMembers_modifyBag (h : f.Sound) (hbag : f.bag = none) (change : Bag → Bag) :
    (f.modifyBag change).toMembers = f.toMembers ++ [(bagKey, (change {}).toJson)] := by
  have hkeyword : Line.mapBag change ∘ Line.ofMember = Line.ofMember := rfl
  rw [(h.modifyBag change).toMembers_layout, layout_modifyBag, h.toMembers_layout, Layout.modifyBag,
    Layout.openBag, any_isBag_layout, hbag, Option.isSome_none, if_neg Bool.false_ne_true,
    List.map_append, layout_of_no_bag hbag, List.map_map, hkeyword, Layout.toMembers, List.map_append]
  rfl

/-- **A fragment is written as its layout.**  After any edits that leave the name of the bag to the bag,
what is written is the list of lines that went through the same edits.  While there is a bag its place
is not behind the last keyword; the place is never counted down below zero; and a bag that is created
when there is none, be it the first or after one was dropped, is written behind everything that is there
by then. -/
theorem toJson_applyAll {edits : List Edit} (hedits : ∀ e ∈ edits, e.Regular) :
    let f := Edit.applyAll edits {}
    f.toJson = (Layout.applyAll [] edits).toJson ∧
      (f.bag ≠ none → f.slot ≤ f.keywords.length) ∧
      (∀ name i, Members.position? f.keywords name = some i → i < f.slot →
        (f.remove name).slot + 1 = f.slot) ∧
      (f.bag = none → ∀ change,
        (f.modifyBag change).toMembers = f.toMembers ++ [(bagKey, (change {}).toJson)]) := by
  intro f
  obtain ⟨hsound, hlayout⟩ := sound_empty.applyAll hedits
  refine ⟨?_, hsound.slot, fun name i hi hbefore => ?_, hsound.toMembers_modifyBag⟩
  · rw [toJson, hsound.toMembers_layout, hlayout]
    rfl
  · rw [slot_remove hi, if_pos hbefore]
    omega

/-- A bag between keywords, of which the first is removed and the second set again; the bag is dropped
with its only name and created again behind a later keyword. -/
theorem toJson_applyAll_reopened :
    let edits : List Edit :=
      [.insert "a" .null, .insert "b" .null, .bag (.merge [("extract", .string "Name")]),
       .insert "c" .null, .remove "a", .insert "b" (.bool true)]
    (∀ e ∈ edits ++ [.takeExtract, .bag (.setUnit "s"), .insert "d" .null], e.Regular) ∧
    (Edit.applyAll edits {}).toJson = .object
      [("b", .bool true), ("meta", .object [("extract", .string "Name")]), ("c", .null)] ∧
    (Edit.applyAll (edits ++ [.takeExtract, .bag (.setUnit "s"), .insert "d" .null]) {}).toJson =
      .object [("b", .bool true), ("c", .null), ("meta", .object [("unit", .string "s")]),
        ("d", .null)] := by
  intro edits
  have hregular : ∀ e ∈ edits ++ [.takeExtract, .bag (.setUnit "s"), .insert "d" .null],
      e.Regular := by
    intro e he value heq
    subst heq
    simp [edits, bagKey] at he
  refine ⟨hregular, ?_, ?_⟩
  · rw [(toJson_applyAll fun e he => hregular e (List.mem_append_left _ he)).1]
    rfl
  · rw [(toJson_applyAll hregular).1]
    rfl

end Fragment
end Schemata
