import Schemata.Proofs.Common
import Schemata.Proofs.Success
/-!
# Output — the members that a node gives

A node of a kind that is converted, and not only referred to, gives the members of its schema.  They
stand in its place, or are registered under its path and a reference stands in its place
(`Description.Output`).  For the keywords of the kind it makes no difference which: their values are
those of the fragment that the kind made of the common keywords (`Description.output_of_run`).
-/
namespace Schemata

/-! ## Look-ups -/

namespace Members

variable {α : Type} {name : String}

theorem get?_append (ms more : Members α) :
    get? (ms ++ more) name = (get? ms name).or (get? more name) := by
  cases hms : get? ms name with
  | some value => exact get?_append_of_some more hms
  | none => exact get?_append_of_not_mem more (get?_eq_none_iff.1 hms)

theorem get?_insertAll_of_not_mem : ∀ {new ms : Members α}, name ∉ names new →
    get? (insertAll ms new) name = get? ms name
  | [], _, _ => rfl
  | (n, v) :: new, ms, h => by
    simp only [names, List.map_cons, List.mem_cons, not_or] at h
    change get? (insertAll (insert ms n v) new) name = _
    rw [get?_insertAll_of_not_mem h.2, get?_insert_of_ne v (Ne.symm h.1)]

/-- Of names that are distinct, the new value is found before the old one. -/
theorem get?_insertAll : ∀ {new ms : Members α}, (names new).Nodup →
    get? (insertAll ms new) name = (get? new name).or (get? ms name)
  | [], _, _ => rfl
  | (n, v) :: new, ms, h => by
    have h := List.nodup_cons.1 h
    change get? (insertAll (insert ms n v) new) name = _
    rw [get?]
    by_cases hn : n = name
    · subst hn
      rw [if_pos rfl, get?_insertAll_of_not_mem h.1, get?_insert_self]
      rfl
    · rw [if_neg hn, get?_insertAll h.2, get?_insert_of_ne v hn]

end Members

namespace Fragment

variable {name other : String}

theorem get?_insert_self (f : Fragment) (name : String) (value : Json) :
    (f.insert name value).get? name = some value :=
  Members.get?_insert_self name value f.keywords

theorem get?_insert_of_ne (f : Fragment) (h : name ≠ other) (value : Json) :
    (f.insert name value).get? other = f.get? other :=
  Members.get?_insert_of_ne value h f.keywords

/-- A keyword that may be left out and does not stand yet. -/
theorem get?_insertOption_self {f : Fragment} (h : f.get? name = none) (value? : Option Json) :
    (f.insertOption name value?).get? name = value? := by
  cases value? with
  | none => exact h
  | some value => exact f.get?_insert_self name value

theorem get?_insertOption_of_ne (f : Fragment) (h : name ≠ other) (value? : Option Json) :
    (f.insertOption name value?).get? other = f.get? other := by
  cases value? with
  | none => rfl
  | some value => exact f.get?_insert_of_ne h value

/-- Keywords with given names are not noticed by a look-up of another name. -/
theorem Gains.get?_of_not_mem {names : List String} {f g : Fragment} (h : f.Gains names g)
    (hname : name ∉ names) : g.get? name = f.get? name := by
  obtain ⟨ms, hms, rfl⟩ := h
  rw [get?, keywords_insertAll, Members.get?_insertAll_of_not_mem]
  · rfl
  · intro hmem
    obtain ⟨m, hm, rfl⟩ := List.mem_map.1 hmem
    exact hname (hms m hm)

/-- **A keyword is written as it stands**, wherever the bag is written. -/
theorem get?_toMembers {f : Fragment} (hnodup : (Members.names f.keywords).Nodup)
    (hname : name ≠ bagKey) : Members.get? f.toMembers name = f.get? name := by
  unfold toMembers
  cases f.bag with
  | none => rfl
  | some b =>
    have hsplit := List.take_append_drop f.slot f.keywords
    rw [← hsplit, Members.names, List.map_append, List.nodup_append] at hnodup
    obtain ⟨-, hdrop, hdisjoint⟩ := hnodup
    have hget : f.get? name = (Members.get? (f.keywords.take f.slot) name).or
        (Members.get? (f.keywords.drop f.slot) name) := by
      rw [← Members.get?_append, hsplit]
      rfl
    dsimp only
    rw [hget, Members.get?_insertAll hdrop, Members.get?_insert_of_ne _ hname.symm]
    cases htake : Members.get? (f.keywords.take f.slot) name with
    | none => rw [Option.or_none, Option.none_or]
    | some value =>
      have hmem : name ∈ Members.names (f.keywords.take f.slot) :=
        List.mem_map_of_mem (Members.mem_of_get?_eq_some htake)
      have hnone : Members.get? (f.keywords.drop f.slot) name = none :=
        Members.get?_eq_none_iff.2 fun hmem' => hdisjoint name hmem name hmem' rfl
      rw [hnone]
      rfl

end Fragment

/-- The common keywords leave those of a kind free. -/
theorem Traits.get?_commonFragment (t : Traits) {kind : Kind} {name : String}
    (hname : name ∈ kind.ownKeywords) : (t.commonFragment t.leadingFragment).get? name = none := by
  refine Members.get?_eq_none_iff.2 fun hmem => ?_
  rw [t.keywords_common] at hmem
  exact kind.ownKeywords_not_common name hname (t.names_keywords_subset hmem)

/-! ## A node -/

namespace Description

variable {o : Options} {d : Description} {kind : Kind} {r r' : Registry} {result : Option Json}

/-- **A node of a kind gives members**, after it converted what it visits: they are written in its
place, or registered, and a reference stands in its place. -/
inductive Output (o : Options) (d : Description) (kind : Kind) (r : Registry) (ms : Members Json) :
    Option Json → Registry → Prop where
  | written {r' : Registry} (hpath : o.path? d = none)
    (hbelow : Succession o (d.visitedBy kind) r r') :
    Output o d kind r ms (some (.object ms)) r'
  | registered {path : String} {r' : Registry} (hpath : o.path? d = some path)
    (hbelow : Succession o (d.visitedBy kind) r r') :
    Output o d kind r ms (some (.reference path)) (r'.register path (.object ms))

/-- The node is not registered, or its path is not taken: it is converted, not only referred to. -/
def IsOpen (o : Options) (d : Description) (r : Registry) : Prop :=
  ∀ path, o.path? d = some path → path ∉ r.paths

/-- **What a node of a kind gives** has, under the keywords of the kind, the values that the kind gave
them. -/
theorem output_of_run (hkind : o.resolve d.typeName = some (.inr kind))
    (halternatives : kind ≠ .alternatives) (hopen : d.IsOpen o r)
    (h : (d.convert o).run r = (.ok result, r')) :
    ∃ g s ms,
      (kind.convert o.toSettings d.toTraits (d.conversionsBelow o o.elsewhere)
        (d.commonFragment d.leadingFragment)).run r = (.ok g, s) ∧
      Output o d kind r ms result r' ∧
      ∀ name ∈ kind.ownKeywords, Members.get? ms name = g.get? name := by
  have hlookup : ∀ {g f : Fragment} {s : Registry},
      (kind.convert o.toSettings d.toTraits (d.conversionsBelow o o.elsewhere)
        (d.commonFragment d.leadingFragment)).run r = (.ok g, s) → f.keywords = g.keywords →
      ∀ name ∈ kind.ownKeywords, Members.get? f.toMembers name = g.get? name := by
    intro g f s hrun hkeywords name hname
    obtain ⟨own, -, rfl⟩ := Kind.convert_gains halternatives _ _ _ _ r g s hrun
    have hmeta : name ≠ Fragment.bagKey := by
      rintro rfl
      exact kind.ownKeywords_not_common _ hname (by decide)
    rw [Fragment.get?_toMembers (hkeywords ▸ d.nodup_commonFragment own) hmeta, Fragment.get?,
      hkeywords]
    rfl
  rw [convert_eq, convertWith_eq, convertNode_of_kind hkind, Options.extraction?_eq_path?] at h
  have hbelow := kind.convert_converts o.toSettings (o := o) d.conversionsBelow_converts
    (d.commonFragment d.leadingFragment)
  cases Conversion.ending_of_run h with
  | referred hpath htaken => exact absurd (Registry.contains_iff.1 htaken) (hopen _ hpath)
  | written hpath hrun =>
    exact ⟨_, _, _, hrun, .written hpath (hbelow r _ _ hrun), hlookup hrun rfl⟩
  | registered hpath _ hrun =>
    exact ⟨_, _, _, hrun, .registered hpath (hbelow r _ _ hrun),
      hlookup hrun (Fragment.keywords_takeExtract _)⟩

end Description
end Schemata
