/-!
# Members — named values in order

A JSON object, a keyword list and a registry are all the same thing: names in the order in which
they first came, one value each.  Inserting a name that is there replaces its value where it stands;
a new name goes to the end.
-/
namespace Schemata

abbrev Members (α : Type) : Type := List (String × α)

namespace Members

variable {α : Type}

def names (ms : Members α) : List String := ms.map Prod.fst

def get? : Members α → String → Option α
  | [], _ => none
  | (n, v) :: ms, name => if n = name then some v else get? ms name

def contains (ms : Members α) (name : String) : Bool := (get? ms name).isSome

/-- Set a name: in place when it is there, at the end when it is not. -/
def insert : Members α → String → α → Members α
  | [], name, value => [(name, value)]
  | (n, v) :: ms, name, value =>
    if n = name then (n, value) :: ms else (n, v) :: insert ms name value

/-- Take a name out and keep the order of the rest. -/
def erase : Members α → String → Members α
  | [], _ => []
  | (n, v) :: ms, name => if n = name then ms else (n, v) :: erase ms name

def position? : Members α → String → Option Nat
  | [], _ => none
  | (n, _) :: ms, name => if n = name then some 0 else (position? ms name).map (· + 1)

def insertAll (ms new : Members α) : Members α := new.foldl (fun ms m => insert ms m.1 m.2) ms

/-- A repeated name keeps its first place and its last value. -/
def ofList (ms : List (String × α)) : Members α := insertAll [] ms

/-! ## What insertion does to a look-up -/

@[simp] theorem get?_nil (name : String) : get? ([] : Members α) name = none := rfl

theorem get?_insert_self (name : String) (value : α) :
    ∀ ms : Members α, get? (insert ms name value) name = some value
  | [] => by simp [insert, get?]
  | (n, v) :: ms => by
    by_cases h : n = name
    · simp [insert, get?, h]
    · simp [insert, get?, h, get?_insert_self name value ms]

theorem get?_insert_of_ne {name other : String} (value : α) (h : name ≠ other) :
    ∀ ms : Members α, get? (insert ms name value) other = get? ms other
  | [] => by simp [insert, get?, h]
  | (n, v) :: ms => by
    by_cases hn : n = name
    · subst hn; simp [insert, get?, h]
    · by_cases ho : n = other
      · subst ho; simp [insert, get?, hn]
      · simp [insert, get?, hn, ho, get?_insert_of_ne value h ms]

theorem insert_of_not_mem (name : String) (value : α) :
    ∀ ms : Members α, name ∉ names ms → insert ms name value = ms ++ [(name, value)]
  | [], _ => rfl
  | (n, v) :: ms, h => by
    simp only [names, List.map_cons, List.mem_cons, not_or] at h
    simp only [insert, if_neg (Ne.symm h.1), List.cons_append,
      insert_of_not_mem name value ms h.2]

theorem contains_iff (name : String) :
    ∀ ms : Members α, contains ms name = true ↔ name ∈ names ms
  | [] => by simp [contains, names]
  | (n, v) :: ms => by
    have ih := contains_iff name ms
    by_cases h : n = name
    · simp [contains, get?, names, h]
    · simp only [contains] at ih
      simp [contains, get?, names, h, Ne.symm h, ih]

end Members
end Schemata
