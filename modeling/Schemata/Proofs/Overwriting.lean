import Schemata.Proofs.Members
/-!
# Overwriting — a name that is written again

Insertion is one of several ways to write named values into something.  They have in common that what
is written under a name takes the place of what was written under it before, also when something was
written under other names in between (`Members.Overwrites`).  So it makes no difference whether two
lists of values are written one after the other or inserted into one list that is then written
(`Members.Overwrites.foldl_insertAll`).
-/
namespace Schemata
namespace Members

variable {α σ : Type} {write : σ → String × α → σ} {name : String}

/-- **Steps that write named values**, a later one over an earlier one under the same name. -/
structure Overwrites (write : σ → String × α → σ) : Prop where
  again : ∀ s name v w, write (write s (name, v)) (name, w) = write s (name, w)
  past : ∀ s name other v w x, name ≠ other →
    write (write (write s (name, v)) (other, x)) (name, w) = write (write s (name, w)) (other, x)

namespace Overwrites

/-- A value that is written behind others under other names might as well have been written in the
place of the one before them. -/
theorem foldl_past (h : Overwrites write) : ∀ {ms : Members α}, name ∉ names ms →
    ∀ (s : σ) (v w : α),
      write (ms.foldl write (write s (name, v))) (name, w) = ms.foldl write (write s (name, w))
  | [], _, s, v, w => h.again s name v w
  | (other, x) :: ms, hname, s, v, w => by
    simp only [names, List.map_cons, List.mem_cons, not_or] at hname
    let t := write (write s (name, v)) (other, x)
    -- The first value is still there, so that writing it once more changes nothing.
    have ht : write t (name, v) = t := h.past s name other v v x hname.1
    calc write (ms.foldl write t) (name, w)
        = write (ms.foldl write (write t (name, v))) (name, w) := by rw [ht]
      _ = ms.foldl write (write t (name, w)) := h.foldl_past hname.2 t v w
      _ = ms.foldl write (write (write s (name, w)) (other, x)) := by
        rw [h.past s name other v w x hname.1]

theorem foldl_insert (h : Overwrites write) (value : α) : ∀ {ms : Members α}, (names ms).Nodup →
    ∀ s : σ, (insert ms name value).foldl write s = write (ms.foldl write s) (name, value)
  | [], _, _ => rfl
  | (n, v) :: ms, hnodup, s => by
    have hnodup := List.nodup_cons.1 hnodup
    rw [insert]
    by_cases hn : n = name
    · subst hn
      rw [if_pos rfl, List.foldl_cons, List.foldl_cons, h.foldl_past hnodup.1]
    · rw [if_neg hn, List.foldl_cons, List.foldl_cons, h.foldl_insert value hnodup.2]

/-- **Writing one list after another is writing the first with the second inserted over it.** -/
theorem foldl_insertAll (h : Overwrites write) : ∀ (new : Members α) {ms : Members α},
    (names ms).Nodup → ∀ s : σ,
      (insertAll ms new).foldl write s = new.foldl write (ms.foldl write s)
  | [], _, _, _ => rfl
  | (name, value) :: new, ms, hnodup, s => by
    change (insertAll (insert ms name value) new).foldl write s = _
    rw [h.foldl_insertAll new (nodup_insert hnodup name value), h.foldl_insert value hnodup,
      List.foldl_cons]

end Overwrites

/-! ## Insertion -/

theorem insert_insert_self (v w : α) : ∀ ms : Members α,
    insert (insert ms name v) name w = insert ms name w
  | [] => by simp [insert]
  | (n, x) :: ms => by
    by_cases hn : n = name
    · simp [insert, hn]
    · simp [insert, hn, insert_insert_self v w ms]

/-- A name that is there keeps its place, whatever is inserted in between. -/
theorem insert_insert_of_ne {other : String} (v w x : α) (hne : name ≠ other) : ∀ ms : Members α,
    insert (insert (insert ms name v) other x) name w = insert (insert ms name w) other x
  | [] => by simp [insert, hne]
  | (n, y) :: ms => by
    by_cases hn : n = name
    · simp [insert, hn, hne]
    · by_cases ho : n = other
      · simp [insert, ho, hne.symm, insert_insert_self]
      · simp [insert, hn, ho, insert_insert_of_ne v w x hne ms]

theorem overwrites_insert : Overwrites fun (ms : Members α) m => insert ms m.1 m.2 :=
  ⟨fun ms _ v w => insert_insert_self v w ms, fun ms _ _ v w x hne => insert_insert_of_ne v w x hne ms⟩

/-- A list may be collapsed into a table before it is inserted. -/
theorem insertAll_ofList (ms new : Members α) : insertAll ms (ofList new) = insertAll ms new :=
  have hnodup : (names ([] : Members α)).Nodup := List.nodup_nil
  overwrites_insert.foldl_insertAll new hnodup ms

end Members
end Schemata
