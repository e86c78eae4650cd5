import Schemata.Fragment.Edit
import Schemata.Proofs.Bag
import Schemata.Proofs.Collisions
import Schemata.Proofs.Overwriting
/-!
# Metadata — what a bag says of the fragments that were merged into it

A bag has entries, and slots for five names.  Both are overwritten by what is merged later, so a bag
reads as the one table into which all the fragments were inserted: the names with a slot are taken out
of it and written behind the others, notes and tags as lists.  What is added after that makes those two
lists longer and sets the unit (`Bag.merge_written`).
-/
namespace Schemata
namespace Bag

open Members (names present)

variable {α : Type}

/-! ## Slots and entries -/

/-- The names that are not among the entries, in the order in which they are written. -/
def slotNames : List String := ["notes", "tags", "unit", extractKey, termKey]

namespace Edit

def applyAll (edits : List Edit) (b : Bag) : Bag := edits.foldl (fun b e => e.apply b) b

def unit? : Edit → Option String
  | setUnit unit => some unit
  | _ => none

end Edit

/-- The members for the slots. -/
def slotMembers (b : Bag) : Members Json :=
  present [("notes", b.notes.map .array), ("tags", b.tags.map .array), ("unit", b.unit),
    (extractKey, b.extract), (termKey, b.term)]

theorem insertSlot_eq (ms : Members Json) (name : String) (value? : Option Json) :
    insertSlot ms name value? = Members.insertAll ms (present [(name, value?)]) := by
  cases value? <;> rfl

theorem names_slotMembers_sublist (b : Bag) : (names b.slotMembers).Sublist slotNames :=
  Members.names_present_sublist _

/-- The slots are written behind the entries if none of these has a name with a slot. -/
theorem toMembers_eq {b : Bag} (h : ∀ name ∈ slotNames, name ∉ names b.entries) :
    b.toMembers = b.entries ++ b.slotMembers := by
  have hwritten : b.toMembers = Members.insertAll b.entries b.slotMembers := by
    simp only [toMembers, insertSlot_eq, ← Members.insertAll_append, ← Members.present_append]
    rfl
  have hsublist := b.names_slotMembers_sublist
  rw [hwritten]
  exact Members.insertAll_of_disjoint (hsublist.nodup (by decide))
    fun name hname => h name (hsublist.subset hname)

end Bag
end Schemata
