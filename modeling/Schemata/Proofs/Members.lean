import Mathlib.Data.List.Nodup
import Schemata.Members
/-!
# Members — insertion and look-up, further

A name is looked up where it first stands.  Inserting a name that is there changes its value only; so
names stay distinct, and new names that are distinct from those that are there are appended.  Members
that may be left out are listed as a table of optional values (`Members.present`).
-/
namespace Schemata
namespace Members

variable {α : Type}

/-! ## Look-up -/

theorem get?_append_of_some {name : String} {value : α} :
    ∀ {ms : Members α} (more : Members α), get? ms name = some value →
      get? (ms ++ more) name = some value
  | [], _, h => by cases h
  | (n, v) :: ms, more, h => by
    rw [List.cons_append, get?]
    rw [get?] at h
    split
    · rename_i hn
      rw [if_pos hn] at h
      exact h
    · rename_i hn
      rw [if_neg hn] at h
      exact get?_append_of_some more h

theorem get?_append_of_not_mem {name : String} :
    ∀ {ms : Members α} (more : Members α), name ∉ names ms →
      get? (ms ++ more) name = get? more name
  | [], _, _ => rfl
  | (n, v) :: ms, more, h => by
    simp only [names, List.map_cons, List.mem_cons, not_or] at h
    rw [List.cons_append, get?, if_neg (Ne.symm h.1)]
    exact get?_append_of_not_mem more h.2

theorem get?_eq_none_iff {name : String} {ms : Members α} :
    get? ms name = none ↔ name ∉ names ms := by
  rw [← contains_iff, contains, Bool.not_eq_true, Option.isSome_eq_false_iff,
    Option.isNone_iff_eq_none]

/-- Members behind others are not noticed by a look-up of another name. -/
theorem get?_append_left {name : String} {more : Members α} (h : name ∉ names more)
    (ms : Members α) : get? (ms ++ more) name = get? ms name := by
  cases hms : get? ms name with
  | some value => exact get?_append_of_some more hms
  | none => rw [get?_append_of_not_mem more (get?_eq_none_iff.1 hms), get?_eq_none_iff.2 h]

theorem mem_of_get?_eq_some {name : String} {value : α} :
    ∀ {ms : Members α}, get? ms name = some value → (name, value) ∈ ms
  | [], h => by cases h
  | (n, v) :: ms, h => by
    rw [get?] at h
    split at h
    · rename_i hn
      cases h
      rw [hn]
      exact List.mem_cons_self
    · exact List.mem_cons_of_mem _ (mem_of_get?_eq_some h)

/-! ## Insertion -/

theorem insert_ne_nil (ms : Members α) (name : String) (value : α) : insert ms name value ≠ [] := by
  cases ms with
  | nil => exact List.cons_ne_nil _ _
  | cons m ms =>
    rw [insert]
    split <;> exact List.cons_ne_nil _ _

theorem mem_insert {ms : Members α} {name : String} {value : α} {m : String × α} :
    m ∈ insert ms name value → m = (name, value) ∨ m ∈ ms := by
  induction ms with
  | nil => exact fun h => .inl (List.mem_singleton.1 h)
  | cons head ms ih =>
    obtain ⟨n, v⟩ := head
    rw [insert]
    split
    · rename_i hn
      rw [hn, List.mem_cons, List.mem_cons]
      exact fun h => h.imp id .inr
    · rw [List.mem_cons, List.mem_cons]
      rintro (h | h)
      · exact .inr (.inl h)
      · exact (ih h).imp id .inr

theorem mem_insertAll {m : String × α} : ∀ (new : Members α) {ms : Members α},
    m ∈ insertAll ms new → m ∈ ms ∨ m ∈ new
  | [], _, h => .inl h
  | (name, value) :: new, ms, h => by
    rcases mem_insertAll new h with h | h
    · exact (mem_insert h).elim (fun h => .inr (h ▸ List.mem_cons_self)) .inl
    · exact .inr (List.mem_cons_of_mem _ h)

theorem names_insert_of_mem {name : String} (value : α) : ∀ {ms : Members α},
    name ∈ names ms → names (insert ms name value) = names ms
  | [], h => absurd h List.not_mem_nil
  | (n, v) :: ms, h => by
    rw [insert]
    split
    · rfl
    · rename_i hn
      have h : name ∈ names ms := (List.mem_cons.1 h).resolve_left (Ne.symm hn)
      exact congrArg (n :: ·) (names_insert_of_mem value h)

theorem names_insert (ms : Members α) (name : String) (value : α) :
    names (insert ms name value) = if name ∈ names ms then names ms else names ms ++ [name] := by
  split
  · rename_i hname
    exact names_insert_of_mem value hname
  · rename_i hname
    rw [insert_of_not_mem name value ms hname, names, List.map_append]
    rfl

theorem nodup_insert {ms : Members α} (h : (names ms).Nodup) (name : String) (value : α) :
    (names (insert ms name value)).Nodup := by
  by_cases hn : name ∈ names ms
  · rw [names_insert_of_mem value hn]
    exact h
  · rw [insert_of_not_mem name value ms hn, names, List.map_append]
    rw [List.nodup_append]
    refine ⟨h, by simp, fun other ho b hb hne => ?_⟩
    rw [List.map_cons, List.map_nil, List.mem_singleton] at hb
    rw [hne, hb] at ho
    exact hn ho

theorem nodup_insertAll (new : Members α) {ms : Members α} (h : (names ms).Nodup) :
    (names (insertAll ms new)).Nodup := by
  induction new generalizing ms with
  | nil => exact h
  | cons m new ih => exact ih (nodup_insert h m.1 m.2)

theorem insertAll_append (ms new more : Members α) :
    insertAll ms (new ++ more) = insertAll (insertAll ms new) more :=
  List.foldl_append

theorem insertAll_of_disjoint : ∀ {new ms : Members α}, (names new).Nodup →
    (∀ name ∈ names new, name ∉ names ms) → insertAll ms new = ms ++ new
  | [], ms, _, _ => (List.append_nil ms).symm
  | (name, value) :: new, ms, hnodup, hms => by
    have hnodup := List.nodup_cons.1 hnodup
    change insertAll (insert ms name value) new = _
    rw [insert_of_not_mem name value ms (hms name List.mem_cons_self),
      insertAll_of_disjoint hnodup.2, List.append_assoc]
    · rfl
    · intro other ho hmem
      rw [names, List.map_append, List.mem_append] at hmem
      rcases hmem with hmem | hmem
      · exact hms other (List.mem_cons_of_mem _ ho) hmem
      · rw [List.map_singleton, List.mem_singleton] at hmem
        exact hnodup.1 (hmem ▸ ho)

/-- A name behind others stands where it first stands among them. -/
theorem eraseDups_concat (others : List String) (name : String) :
    (others ++ [name]).eraseDups =
      if name ∈ others then others.eraseDups else others.eraseDups ++ [name] := by
  rw [List.eraseDups_append]
  by_cases h : name ∈ others
  · simp [List.removeAll, h]
  · have hnew : [name].removeAll others = [name] := by simp [List.removeAll, h]
    rw [if_neg h, hnew]
    rfl

/-! ## Insertion behind members that are there -/

theorem insert_append_of_not_mem {name : String} (value : α) (own : Members α) :
    ∀ {ms : Members α}, name ∉ names ms → insert (ms ++ own) name value = ms ++ insert own name value
  | [], _ => rfl
  | (n, v) :: ms, h => by
    simp only [names, List.map_cons, List.mem_cons, not_or] at h
    rw [List.cons_append, insert, if_neg (Ne.symm h.1), insert_append_of_not_mem value own h.2,
      List.cons_append]

theorem insertAll_append_of_not_mem {ms : Members α} : ∀ (new own : Members α),
    (∀ m ∈ new, m.1 ∉ names ms) → insertAll (ms ++ own) new = ms ++ insertAll own new
  | [], _, _ => rfl
  | (name, value) :: new, own, h => by
    rw [List.forall_mem_cons] at h
    change insertAll (insert (ms ++ own) name value) new = _
    rw [insert_append_of_not_mem value own h.1, insertAll_append_of_not_mem new _ h.2]
    rfl

/-- New members are collapsed and stand behind those that are there. -/
theorem insertAll_of_not_mem {ms new : Members α} (h : ∀ m ∈ new, m.1 ∉ names ms) :
    insertAll ms new = ms ++ ofList new := by
  have hbehind := insertAll_append_of_not_mem new [] h
  rwa [List.append_nil] at hbehind

theorem ofList_of_nodup {ms : Members α} (h : (names ms).Nodup) : ofList ms = ms :=
  insertAll_of_disjoint h fun _ _ => List.not_mem_nil

/-! ## Members that may be left out -/

/-- The members that have a value. -/
def present (table : List (String × Option α)) : Members α :=
  table.filterMap fun m => m.2.map fun value => (m.1, value)

@[simp] theorem present_nil : present ([] : List (String × Option α)) = [] := rfl

theorem present_cons (name : String) (value? : Option α) (table : List (String × Option α)) :
    present ((name, value?) :: table) = (value?.map fun v => (name, v)).toList ++ present table := by
  cases value? <;> rfl

theorem present_append (table more : List (String × Option α)) :
    present (table ++ more) = present table ++ present more :=
  List.filterMap_append

theorem names_present_sublist : ∀ table : List (String × Option α),
    (names (present table)).Sublist (table.map Prod.fst)
  | [] => .slnil
  | (name, none) :: table => (names_present_sublist table).cons name
  | (name, some _) :: table => (names_present_sublist table).cons_cons name

/-- A member is there if and only if it has a value. -/
theorem get?_present {name : String} {value? : Option α} :
    ∀ {table : List (String × Option α)}, (table.map Prod.fst).Nodup → (name, value?) ∈ table →
      get? (present table) name = value?
  | (n, v?) :: table, hnodup, hmem => by
    rw [List.map_cons, List.nodup_cons] at hnodup
    rcases List.mem_cons.1 hmem with heq | hmem
    · cases heq
      cases value? with
      | some value => exact if_pos rfl
      | none =>
        refine get?_eq_none_iff.2 fun hname => hnodup.1 ?_
        exact (names_present_sublist table).subset hname
    · have hne : n ≠ name := by
        rintro rfl
        exact hnodup.1 (List.mem_map.2 ⟨_, hmem, rfl⟩)
      have ih := get?_present hnodup.2 hmem
      cases v? with
      | none => exact ih
      | some v => exact (if_neg hne).trans ih

end Members
end Schemata
