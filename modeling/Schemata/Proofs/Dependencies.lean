import Schemata.Proofs.Folds
import Schemata.Proofs.Output
/-!
# Dependencies — which keys of an object need which

A dependency says of some keys which others they need: of several peers each needs all others, or one
key needs its peers.  All dependencies of an object are written into one table, one entry a key.  An
entry is written over, not added to; so under a key stands what the last dependency that concerns the
key says, and what others say of it is lost unless the last says it, too
(`Description.convert_dependencies`, `Description.convert_dependencies_lost`).
-/
namespace Schemata

/-! ## What a dependency says -/

namespace Dependency

/-- **A dependency says that one key needs another.** -/
inductive Requires (d : Dependency) : String → String → Prop where
  | reciprocal {key name : String} (hrelation : d.relation = "and") (hkey : key ∈ d.peers)
    (hname : name ∈ d.peers) (hne : key ≠ name) : Requires d key name
  | direct {key name : String} (hrelation : d.relation = "with") (hkey : d.key = some key)
    (hname : name ∈ d.peers) : Requires d key name

/-- The keys that a dependency concerns. -/
def keys (d : Dependency) : List String :=
  if d.relation = "and" then d.peers
  else if d.relation = "with" then d.key.toList
  else []

/-- What a dependency lists under a key that it concerns. -/
def needs (d : Dependency) (key : String) : List String :=
  if d.relation = "and" then d.peers.filter fun other => other ≠ key else d.peers

theorem requires_iff {d : Dependency} {key name : String} :
    d.Requires key name ↔ key ∈ d.keys ∧ name ∈ d.needs key := by
  unfold keys needs
  constructor
  · rintro (⟨hrelation, hkey, hname, hne⟩ | ⟨hrelation, hkey, hname⟩)
    · rw [if_pos hrelation, if_pos hrelation, List.mem_filter, decide_eq_true_eq]
      exact ⟨hkey, hname, hne.symm⟩
    · have hand : d.relation ≠ "and" := by rw [hrelation]; decide
      rw [if_neg hand, if_neg hand, if_pos hrelation, Option.mem_toList]
      exact ⟨hkey, hname⟩
  · by_cases hand : d.relation = "and"
    · rw [if_pos hand, if_pos hand, List.mem_filter, decide_eq_true_eq]
      exact fun ⟨hkey, hname, hne⟩ => .reciprocal hand hkey hname hne.symm
    · rw [if_neg hand, if_neg hand]
      by_cases hwith : d.relation = "with"
      · rw [if_pos hwith, Option.mem_toList]
        exact fun ⟨hkey, hname⟩ => .direct hwith hkey hname
      · rw [if_neg hwith]
        exact fun ⟨hkey, _⟩ => absurd hkey List.not_mem_nil

end Dependency

/-! ## The table -/

theorem Members.get?_foldl_insert {α : Type} (value : String → α) (key : String) :
    ∀ (keys : List String) (ms : Members α),
      get? (keys.foldl (fun ms k => insert ms k (value k)) ms) key =
        if key ∈ keys then some (value key) else get? ms key
  | [], _ => (if_neg List.not_mem_nil).symm
  | k :: keys, ms => by
    rw [List.foldl_cons, get?_foldl_insert value key keys]
    by_cases hmem : key ∈ keys
    · rw [if_pos hmem, if_pos (List.mem_cons_of_mem k hmem)]
    · rw [if_neg hmem]
      by_cases hk : k = key
      · rw [hk, get?_insert_self, if_pos List.mem_cons_self]
      · have hmem' : key ∉ k :: keys := fun h => (List.mem_cons.1 h).elim (Ne.symm hk) hmem
        rw [get?_insert_of_ne _ hk, if_neg hmem']

/-- A table lists a name under a key. -/
def Lists (table : Members Json) (key name : String) : Prop :=
  ∃ names, Members.get? table key = some (.array names) ∧ .string name ∈ names

theorem lists_iff_of_get? {table : Members Json} {key name : String} {names : List String}
    (h : Members.get? table key = some (.array (names.map .string))) :
    Lists table key name ↔ name ∈ names := by
  constructor
  · rintro ⟨vs, hvs, hmem⟩
    rw [h] at hvs
    cases hvs
    obtain ⟨other, hother, heq⟩ := List.mem_map.1 hmem
    cases heq
    exact hother
  · exact fun hmem => ⟨_, h, List.mem_map_of_mem hmem⟩

namespace Keywords

variable {d : Dependency} {ds behind : List Dependency} {ms ns table : Members Json}
  {key name : String}

/-- **One dependency writes the entries of the keys that it concerns**, over those that are there. -/
theorem get?_addDependency (h : addDependency ms d = .ok ns) (key : String) :
    Members.get? ns key =
      if key ∈ d.keys then some (.array ((d.needs key).map .string)) else Members.get? ms key := by
  unfold addDependency at h
  unfold Dependency.keys Dependency.needs
  by_cases hand : d.relation = "and"
  · rw [if_pos hand] at h ⊢
    cases h
    rw [if_pos hand]
    exact Members.get?_foldl_insert _ key d.peers ms
  · rw [if_neg hand] at h ⊢
    rw [if_neg hand]
    by_cases hwith : d.relation = "with"
    · rw [if_pos hwith] at h ⊢
      cases hkey : d.key with
      | none =>
        rw [hkey] at h
        cases h
      | some k =>
        rw [hkey] at h
        cases h
        have hmem : key ∈ (some k).toList ↔ k = key := by
          rw [Option.mem_toList, Option.some_inj]
        by_cases hk : k = key
        · rw [if_pos (hmem.2 hk), hk, Members.get?_insert_self]
        · rw [if_neg (mt hmem.1 hk), Members.get?_insert_of_ne _ hk]
    · rw [if_neg hwith] at h
      cases h

/-- The last dependency that concerns a key, with those behind it. -/
abbrev LastConcerning (key : String) (ds : List Dependency) (d : Dependency)
    (behind : List Dependency) : Prop :=
  IsLast (fun d => key ∈ d.keys) ds d behind

theorem keeps_addDependency (key : String) (ms : Members Json) (d : Dependency)
    (ns : Members Json) (hkey : key ∉ d.keys) (h : addDependency ms d = .ok ns) :
    Members.get? ns key = Members.get? ms key := by
  rw [get?_addDependency h, if_neg hkey]

/-- **The last dependency that concerns a key writes its entry.** -/
theorem get?_of_lastConcerning (h : ds.foldlM addDependency [] = .ok table)
    (hlast : LastConcerning key ds d behind) :
    Members.get? table key = some (.array ((d.needs key).map .string)) := by
  obtain ⟨ms, ns, hd, htable⟩ :=
    hlast.observe_eq (fun ms => Members.get? ms key) (keeps_addDependency key) h
  rw [htable, get?_addDependency hd, if_pos hlast.holds]

theorem get?_of_not_concerned (h : ds.foldlM addDependency [] = .ok table)
    (hnone : ∀ d ∈ ds, key ∉ d.keys) : Members.get? table key = none :=
  foldlM_keeps (fun ms : Members Json => Members.get? ms key) (keeps_addDependency key) hnone h

theorem lists_iff_of_lastConcerning (h : ds.foldlM addDependency [] = .ok table)
    (hlast : LastConcerning key ds d behind) : Lists table key name ↔ d.Requires key name := by
  rw [lists_iff_of_get? (get?_of_lastConcerning h hlast), Dependency.requires_iff]
  exact (and_iff_right hlast.holds).symm

/-- Every name that is listed comes from a dependency. -/
theorem exists_requires_of_lists (h : ds.foldlM addDependency [] = .ok table)
    (hlists : Lists table key name) : ∃ d ∈ ds, d.Requires key name := by
  by_cases hsome : ∃ d ∈ ds, key ∈ d.keys
  · obtain ⟨d, behind, hlast⟩ := IsLast.exists_of_mem hsome
    exact ⟨d, hlast.mem, (lists_iff_of_lastConcerning h hlast).1 hlists⟩
  · obtain ⟨names, hnames, -⟩ := hlists
    rw [get?_of_not_concerned h fun d hd hkey => hsome ⟨d, hd, hkey⟩] at hnames
    cases hnames

/-- **Nothing is lost** if and only if the last dependency that concerns a key says of it all that any
dependency says. -/
theorem all_listed_iff (h : ds.foldlM addDependency [] = .ok table) :
    (∀ d ∈ ds, ∀ key name, d.Requires key name → Lists table key name) ↔
      ∀ key last behind, LastConcerning key ds last behind →
        ∀ d ∈ ds, ∀ name, d.Requires key name → last.Requires key name := by
  constructor
  · intro hall key last behind hlast d hd name hrequires
    exact (lists_iff_of_lastConcerning h hlast).1 (hall d hd key name hrequires)
  · intro hall d hd key name hrequires
    have hkey : key ∈ d.keys := (Dependency.requires_iff.1 hrequires).1
    obtain ⟨last, behind, hlast⟩ := IsLast.exists_of_mem (p := fun d => key ∈ d.keys) ⟨d, hd, hkey⟩
    exact (lists_iff_of_lastConcerning h hlast).2 (hall key last behind hlast d hd name hrequires)

/-! ## An object -/

theorem exists_of_applyDependencies_ok {f g : Fragment}
    (h : applyDependencies (some ds) f = .ok g) :
    ∃ table, ds.foldlM addDependency [] = .ok table ∧
      g = f.insert "dependencies" (.object table) := by
  obtain ⟨table, htable, hpure⟩ := exists_ok_of_bind h
  cases hpure
  exact ⟨table, htable, rfl⟩

/-- **The steps of an object that is converted**, each on the fragment that the one before it left. -/
theorem exists_of_applyObject_ok {settings : Settings} {t : Traits} {below : Below} {f g : Fragment}
    {r s : Registry} (h : (applyObject settings t below f).run r = (.ok g, s)) :
    ∃ f₁ children u patterns f₂,
      applyObjectTraits settings t f = .ok f₁ ∧
      below.children.run r = (.ok children, u) ∧
      below.patterns.run u = (.ok patterns, s) ∧
      applyDependencies t.dependencies
        ((f₁.insertOption "properties" (children.map properties)).insertOption "patternProperties"
          (patterns.map fun ps => .object (Members.ofList ps))) = .ok f₂ ∧
      g = f₂.insertOption "required" (required? ((children.map requiredKeys).getD [])) := by
  obtain ⟨f₁, _, hlift, hrest⟩ := Conversion.exists_of_bind_ok h
  obtain ⟨htraits, rfl⟩ := Conversion.eq_of_lift_ok hlift
  obtain ⟨children, u, hchildren, hrest⟩ := Conversion.exists_of_bind_ok hrest
  obtain ⟨patterns, _, hpatterns, hrest⟩ := Conversion.exists_of_bind_ok hrest
  obtain ⟨f₂, _, hlift, hpure⟩ := Conversion.exists_of_bind_ok hrest
  obtain ⟨hdependencies, rfl⟩ := Conversion.eq_of_lift_ok hlift
  cases hpure
  exact ⟨f₁, children, u, patterns, f₂, htraits, hchildren, hpatterns, hdependencies, rfl⟩

end Keywords

open Keywords (LastConcerning)

/-- An object holds the table of its dependencies. -/
theorem Kind.yields_dependencies {settings : Settings} {t : Traits} {below : Below}
    {ds : List Dependency} (hds : t.dependencies = some ds) (f : Fragment) :
    (Kind.object.convert settings t below f).Yields fun g =>
      ∃ table, ds.foldlM Keywords.addDependency [] = .ok table ∧
        g.get? "dependencies" = some (.object table) := by
  intro r g s h
  obtain ⟨_, _, _, _, _, -, -, -, hdependencies, rfl⟩ := Keywords.exists_of_applyObject_ok h
  rw [hds] at hdependencies
  obtain ⟨table, htable, rfl⟩ := Keywords.exists_of_applyDependencies_ok hdependencies
  refine ⟨table, htable, ?_⟩
  rw [Fragment.get?_insertOption_of_ne _ (by decide), Fragment.get?_insert_self]

namespace Description

variable {o : Options} {d : Description} {ds : List Dependency} {r r' : Registry}
  {result : Option Json}

/-- **The dependencies of an object.**  Under a key stands what the last dependency that concerns the
key lists, and there is no entry when none concerns it.  Every name that is listed comes from some
dependency; and every name that some dependency says is needed is listed if and only if, for each
key, the last dependency that concerns it says so itself. -/
theorem convert_dependencies (hkind : o.resolve d.typeName = some (.inr .object))
    (hds : d.dependencies = some ds) (hopen : d.IsOpen o r)
    (h : (d.convert o).run r = (.ok result, r')) :
    ∃ ms table, Output o d .object r ms result r' ∧
      Members.get? ms "dependencies" = some (.object table) ∧
      (∀ key last behind, LastConcerning key ds last behind →
        Members.get? table key = some (.array ((last.needs key).map .string))) ∧
      (∀ key, (∀ e ∈ ds, key ∉ e.keys) → Members.get? table key = none) ∧
      (∀ key name, Lists table key name → ∃ e ∈ ds, e.Requires key name) ∧
      ((∀ e ∈ ds, ∀ key name, e.Requires key name → Lists table key name) ↔
        ∀ key last behind, LastConcerning key ds last behind →
          ∀ e ∈ ds, ∀ name, e.Requires key name → last.Requires key name) := by
  obtain ⟨g, s, ms, hrun, houtput, hlookup⟩ := output_of_run hkind (by decide) hopen h
  obtain ⟨table, htable, hget⟩ := Kind.yields_dependencies hds _ r g s hrun
  refine ⟨ms, table, houtput, (hlookup _ (by decide)).trans hget, ?_, ?_, ?_, ?_⟩
  · exact fun key last behind => Keywords.get?_of_lastConcerning htable
  · exact fun key => Keywords.get?_of_not_concerned htable
  · exact fun key name => Keywords.exists_requires_of_lists htable
  · exact Keywords.all_listed_iff htable

/-- Three keys that need each other, and one of them once more, with the others and a fourth: nothing
is lost. -/
theorem convert_dependencies_repeated :
    let ds : List Dependency :=
      [{ relation := "and", peers := ["a", "b", "c"] },
       { relation := "with", key := some "b", peers := ["c", "d", "a"] }]
    let d : Description := { typeName := "object", dependencies := some ds }
    ({} : Options).resolve d.typeName = some (.inr .object) ∧ d.IsOpen {} {} ∧
    ∃ result r' ms table, (d.convert {}).run {} = (.ok result, r') ∧
      Output {} d .object {} ms result r' ∧
      Members.get? ms "dependencies" = some (.object table) ∧
      Members.get? table "b" = some (.array [.string "c", .string "d", .string "a"]) ∧
      Members.get? table "d" = none ∧
      ∀ e ∈ ds, ∀ key name, e.Requires key name → Lists table key name := by
  intro ds d
  have hkind : ({} : Options).resolve d.typeName = some (.inr .object) := rfl
  have hopen : d.IsOpen {} {} := fun _ _ => List.not_mem_nil
  obtain ⟨result, r', hrun⟩ : ∃ result r', (d.convert {}).run {} = (.ok result, r') := ⟨_, _, rfl⟩
  obtain ⟨ms, table, houtput, htable, hentry, hnone, -, hall⟩ :=
    convert_dependencies hkind rfl hopen hrun
  refine ⟨hkind, hopen, result, r', ms, table, hrun, houtput, htable, ?_, ?_, hall.2 ?_⟩
  · exact hentry "b" _ [] ⟨⟨[_], rfl⟩, by decide, by decide⟩
  · exact hnone "d" (by decide)
  · intro key last behind hlast e he name hrequires
    rcases hlast.of_cons with ⟨rfl, rfl⟩ | hlast'
    · -- The key is none that the second concerns.
      rcases List.mem_cons.1 he with rfl | he
      · exact hrequires
      · exact absurd (Dependency.requires_iff.1 hrequires).1 (hlast.none_behind e he)
    · obtain ⟨rfl, rfl⟩ := hlast'.of_cons.resolve_right fun h => absurd h.mem List.not_mem_nil
      have hkey : key = "b" := List.mem_singleton.1 hlast'.holds
      subst hkey
      have hname : ∀ e ∈ ds, ∀ name ∈ e.needs "b", name ∈ ["c", "d", "a"] := by decide
      exact Dependency.requires_iff.2 ⟨hlast'.holds,
        hname e he name (Dependency.requires_iff.1 hrequires).2⟩

/-- **A dependency is lost** to a later one that concerns the same key. -/
theorem convert_dependencies_lost :
    let first : Dependency := { relation := "with", key := some "a", peers := ["b"] }
    let second : Dependency := { relation := "with", key := some "a", peers := ["c"] }
    let d : Description := { typeName := "object", dependencies := some [first, second] }
    first.Requires "a" "b" ∧
    ∃ ms table, ((d.convert {}).run {}).1 = .ok (some (.object ms)) ∧
      Members.get? ms "dependencies" = some (.object table) ∧ ¬Lists table "a" "b" := by
  intro first second d
  refine ⟨.direct rfl rfl (by decide),
    [("type", .string "object"),
     ("dependencies", .object [("a", .array [.string "c"])])],
    [("a", .array [.string "c"])], rfl, rfl, ?_⟩
  have hlists : Lists [("a", .array [.string "c"])] "a" "b" ↔ "b" ∈ ["c"] := lists_iff_of_get? rfl
  rw [hlists]
  decide

end Description
end Schemata
