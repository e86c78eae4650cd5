import Mathlib.Tactic.SplitIfs
import Schemata.Fragment.Bag
import Schemata.Proofs.Members
/-!
# Bag — the name in the metadata of a node

The name under which a node is registered has a slot of its own in the bag.  What else is merged into
the bag, added to it or taken out of it neither reads nor changes the slot, and the entries never
hold the name; so taking the name out commutes with everything, and with writing the bag.
-/
namespace Schemata
namespace Bag

/-- The bag with a name to register under. -/
def named (b : Bag) (name : String) : Bag := { b with extract := some (.string name) }

/-- The bag without a name to register under. -/
def unnamed (b : Bag) : Bag := { b with extract := none }

/-- A metadata fragment without a name to register under. -/
def unnamedFragment (fragment : Members Json) : Members Json :=
  fragment.filter fun m => m.1 ≠ extractKey

theorem unnamedFragment_cons (name : String) (value : Json) (fragment : Members Json) :
    unnamedFragment ((name, value) :: fragment) =
      if name = extractKey then unnamedFragment fragment
      else (name, value) :: unnamedFragment fragment := by
  rw [unnamedFragment, List.filter_cons]
  by_cases hn : name = extractKey <;> simp [hn, unnamedFragment]

theorem extract_of_extractName? {b : Bag} {name : String} (h : b.extractName? = some name) :
    b.extract = some (.string name) ∧ name.isEmpty = false := by
  rw [extractName?, Option.filter_eq_some_iff, Option.bind_eq_some_iff] at h
  obtain ⟨⟨v, hv, hname⟩, hempty⟩ := h
  rw [Bool.not_eq_true'] at hempty
  cases v with
  | string s =>
    cases hname
    exact ⟨hv, hempty⟩
  | null | bool | number | array | object => cases hname

theorem eq_empty_of_isEmpty {b : Bag} (h : b.isEmpty = true) : b = {} := by
  obtain ⟨entries, notes, tags, unit, extract, term⟩ := b
  simp only [isEmpty, Bool.and_eq_true, List.isEmpty_iff, Option.isNone_iff_eq_none] at h
  obtain ⟨⟨⟨⟨⟨rfl, rfl⟩, rfl⟩, rfl⟩, rfl⟩, rfl⟩ := h
  rfl

theorem isEmpty_named (b : Bag) (name : String) : (b.named name).isEmpty = false := by
  simp [named, isEmpty]

theorem named_unnamed {b : Bag} {name : String} (h : b.extract = some (.string name)) :
    b.unnamed.named name = b := by
  rw [named, unnamed, ← h]

theorem unnamed_of_extract {b : Bag} (h : b.extract = none) : b.unnamed = b := by
  rw [unnamed, ← h]

/-- **A change that adds to a bag**, whatever name is in it. -/
structure Adds (change : Bag → Bag) : Prop where
  named : ∀ b name, change (b.named name) = (change b).named name
  extract : ∀ b, (change b).extract = b.extract
  term : ∀ b, (change b).term = b.term
  entries : ∀ b, (change b).entries = b.entries
  filled : ∀ b, (change b).isEmpty = false

theorem adds_pushNotes (notes : List String) : Adds fun b => b.pushNotes notes :=
  ⟨fun _ _ => rfl, fun _ => rfl, fun _ => rfl, fun _ => rfl, fun b => by simp [pushNotes, isEmpty]⟩

theorem adds_pushTags (tags : List String) : Adds fun b => b.pushTags tags :=
  ⟨fun _ _ => rfl, fun _ => rfl, fun _ => rfl, fun _ => rfl, fun b => by simp [pushTags, isEmpty]⟩

theorem adds_setUnit (unit : String) : Adds fun b => b.setUnit unit :=
  ⟨fun _ _ => rfl, fun _ => rfl, fun _ => rfl, fun _ => rfl, fun b => by simp [setUnit, isEmpty]⟩

theorem takeTerm_named (b : Bag) (name : String) :
    (b.named name).takeTerm = (b.takeTerm.1, b.takeTerm.2.named name) := by
  obtain ⟨entries, notes, tags, unit, extract, term⟩ := b
  unfold takeTerm named
  rcases term with _ | v
  · rfl
  · cases v <;> rfl

theorem takeTerm_fst (b : Bag) : b.takeTerm.1 = b.term.bind Json.string? := by
  obtain ⟨entries, notes, tags, unit, extract, term⟩ := b
  rcases term with _ | v
  · rfl
  · cases v <;> rfl

theorem extract_takeTerm (b : Bag) : b.takeTerm.2.extract = b.extract := by
  unfold takeTerm
  split <;> rfl

theorem entries_takeTerm (b : Bag) : b.takeTerm.2.entries = b.entries := by
  unfold takeTerm
  split <;> rfl

theorem takeExtract_named (b : Bag) (name : String) :
    (b.named name).takeExtract = (some name, b.unnamed) := rfl

/-! ## Metadata fragments -/

theorem isEmpty_mergeMember (b : Bag) (name : String) (value : Json) :
    (b.mergeMember name value).isEmpty = false := by
  have hinsert : (Members.insert b.entries name value).isEmpty = false := by
    cases b.entries with
    | nil => rfl
    | cons m ms =>
      rw [Members.insert]
      split <;> rfl
  unfold mergeMember
  split_ifs <;> simp [isEmpty, hinsert]

theorem isEmpty_merge : ∀ (fragment : Members Json) (b : Bag),
    b.isEmpty = false ∨ fragment ≠ [] → (b.merge fragment).isEmpty = false
  | [], _, h => h.resolve_right fun hne => hne rfl
  | (name, value) :: fragment, b, _ =>
    isEmpty_merge fragment (b.mergeMember name value) (.inl (b.isEmpty_mergeMember name value))

theorem isEmpty_foldl_merge : ∀ (fragments : List (Members Json)) (b : Bag),
    b.isEmpty = false ∨ (∃ fragment ∈ fragments, fragment ≠ []) →
      (fragments.foldl merge b).isEmpty = false
  | [], _, h => h.resolve_right fun ⟨_, hmem, _⟩ => absurd hmem List.not_mem_nil
  | fragment :: fragments, b, h => by
    refine isEmpty_foldl_merge fragments (b.merge fragment) ?_
    rcases h with h | ⟨other, hmem, hne⟩
    · exact .inl (isEmpty_merge fragment b (.inl h))
    · rcases List.mem_cons.1 hmem with rfl | hmem
      · exact .inl (isEmpty_merge other b (.inr hne))
      · exact .inr ⟨other, hmem, hne⟩

theorem foldl_merge_of_all_empty : ∀ (fragments : List (Members Json)) (b : Bag),
    (∀ fragment ∈ fragments, fragment = []) → fragments.foldl merge b = b
  | [], _, _ => rfl
  | fragment :: fragments, b, h => by
    rw [List.forall_mem_cons] at h
    rw [List.foldl_cons, h.1]
    exact foldl_merge_of_all_empty fragments b h.2

theorem unnamed_mergeMember (b : Bag) {name : String} (hn : name ≠ extractKey) (value : Json) :
    (b.mergeMember name value).unnamed = b.unnamed.mergeMember name value := by
  unfold mergeMember
  rw [if_neg hn, if_neg hn]
  split_ifs <;> rfl

theorem unnamed_merge : ∀ (fragment : Members Json) (b : Bag),
    (b.merge fragment).unnamed = b.unnamed.merge (unnamedFragment fragment)
  | [], _ => rfl
  | (name, value) :: fragment, b => by
    have ih := unnamed_merge fragment (b.mergeMember name value)
    rw [unnamedFragment_cons]
    by_cases hn : name = extractKey
    · rw [if_pos hn]
      have hskip : (b.mergeMember name value).unnamed = b.unnamed := by
        rw [mergeMember, if_pos hn]
        rfl
      rw [hskip] at ih
      exact ih
    · rw [if_neg hn]
      rw [unnamed_mergeMember b hn] at ih
      exact ih

theorem unnamed_foldl_merge : ∀ (fragments : List (Members Json)) (b : Bag),
    (fragments.foldl merge b).unnamed = (fragments.map unnamedFragment).foldl merge b.unnamed
  | [], _ => rfl
  | fragment :: fragments, b => by
    rw [List.foldl_cons, unnamed_foldl_merge fragments (b.merge fragment), unnamed_merge]
    rfl

/-! ## Written bags -/

/-- The entries leave the name to register under to its slot. -/
def Clean (b : Bag) : Prop := extractKey ∉ Members.names b.entries

theorem clean_mergeMember {b : Bag} (h : b.Clean) (name : String) (value : Json) :
    (b.mergeMember name value).Clean := by
  unfold mergeMember
  split_ifs with hn
  all_goals first
    | exact h
    | skip
  intro hmem
  obtain ⟨m, hm, he⟩ := List.mem_map.1 hmem
  rcases Members.mem_insert hm with rfl | hm
  · exact hn he
  · exact h (List.mem_map.2 ⟨m, hm, he⟩)

theorem clean_merge : ∀ (fragment : Members Json) {b : Bag}, b.Clean → (b.merge fragment).Clean
  | [], _, h => h
  | (name, value) :: fragment, _, h => clean_merge fragment (clean_mergeMember h name value)

theorem clean_foldl_merge : ∀ (fragments : List (Members Json)) {b : Bag}, b.Clean →
    (fragments.foldl merge b).Clean
  | [], _, h => h
  | fragment :: fragments, _, h => clean_foldl_merge fragments (clean_merge fragment h)

theorem get?_insertSlot_of_ne {ms : Members Json} {name other : String} (h : name ≠ other)
    (value : Option Json) :
    Members.get? (insertSlot ms name value) other = Members.get? ms other := by
  cases value with
  | none => rfl
  | some v => exact Members.get?_insert_of_ne v h ms

theorem unnamedFragment_insert_self (value : Json) : ∀ ms : Members Json,
    unnamedFragment (Members.insert ms extractKey value) = unnamedFragment ms
  | [] => rfl
  | (n, v) :: ms => by
    rw [Members.insert, unnamedFragment_cons]
    split
    · rename_i hn
      rw [unnamedFragment_cons, if_pos hn]
    · rename_i hn
      rw [unnamedFragment_cons, if_neg hn, unnamedFragment_insert_self value ms]

theorem unnamedFragment_insert_of_ne {name : String} (h : name ≠ extractKey) (value : Json) :
    ∀ ms : Members Json, unnamedFragment (Members.insert ms name value) =
      Members.insert (unnamedFragment ms) name value
  | [] => by
    rw [Members.insert, unnamedFragment_cons, if_neg h]
    rfl
  | (n, v) :: ms => by
    have ih := unnamedFragment_insert_of_ne h value ms
    rw [Members.insert, unnamedFragment_cons]
    by_cases hn : n = name
    · rw [if_pos hn, unnamedFragment_cons, hn, if_neg h, if_neg h, Members.insert, if_pos rfl]
    · rw [if_neg hn, unnamedFragment_cons]
      by_cases hl : n = extractKey
      · rw [if_pos hl, if_pos hl, ih]
      · rw [if_neg hl, if_neg hl, Members.insert, if_neg hn, ih]

theorem unnamedFragment_insertSlot {name : String} (h : name ≠ extractKey) (ms : Members Json)
    (value : Option Json) :
    unnamedFragment (insertSlot ms name value) = insertSlot (unnamedFragment ms) name value := by
  cases value with
  | none => rfl
  | some v => exact unnamedFragment_insert_of_ne h v ms

theorem isEmpty_insertSlot (ms : Members Json) (name : String) (value : Option Json) :
    (insertSlot ms name value).isEmpty = (ms.isEmpty && value.isNone) := by
  cases value with
  | none => simp [insertSlot]
  | some v => simp [insertSlot, Members.insert_ne_nil]

theorem Clean.unnamedFragment_entries {b : Bag} (h : b.Clean) :
    unnamedFragment b.entries = b.entries := by
  refine List.filter_eq_self.2 fun m hm => ?_
  have hne : m.1 ≠ extractKey := fun he => h (List.mem_map.2 ⟨m, hm, he⟩)
  exact decide_eq_true hne

theorem Clean.get?_toMembers {b : Bag} (h : b.Clean) :
    Members.get? b.toMembers extractKey = b.extract := by
  rw [toMembers, get?_insertSlot_of_ne (by decide)]
  cases b.extract with
  | some v => exact Members.get?_insert_self extractKey v _
  | none =>
    rw [insertSlot, get?_insertSlot_of_ne (by decide), get?_insertSlot_of_ne (by decide),
      get?_insertSlot_of_ne (by decide)]
    exact Members.get?_eq_none_iff.2 h

theorem Clean.unnamedFragment_toMembers {b : Bag} (h : b.Clean) :
    unnamedFragment b.toMembers = b.unnamed.toMembers := by
  rw [toMembers, unnamedFragment_insertSlot (by decide)]
  have hname : ∀ ms, unnamedFragment (insertSlot ms extractKey b.extract) = unnamedFragment ms := by
    intro ms
    cases b.extract with
    | none => rfl
    | some v => exact unnamedFragment_insert_self v ms
  rw [hname, unnamedFragment_insertSlot (by decide), unnamedFragment_insertSlot (by decide),
    unnamedFragment_insertSlot (by decide), h.unnamedFragment_entries]
  rfl

theorem isEmpty_toMembers (b : Bag) : b.toMembers.isEmpty = b.isEmpty := by
  simp only [toMembers, isEmpty_insertSlot, isEmpty, Option.isNone_map]

end Bag
end Schemata
