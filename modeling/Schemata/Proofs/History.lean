import Mathlib.Data.List.Induction
import Schemata.Proofs.Session
/-!
# History — a registry through a whole session

A session is more than calls: a converter can be made anew with other options over the registry that
the last one left.  No step takes an entry out or moves one, however it ends and whatever the
handlers do; and a registry starts with the first schema under each path.  So the entries at one
point of a session stand at the head of those at every later point (`Converter.stepAll_keeps`).
-/
namespace Schemata

namespace Registry

/-! ## The registry at the start -/

theorem ofList_concat (schemas : List (String × Json)) (path : String) (schema : Json) :
    ofList (schemas ++ [(path, schema)]) = (ofList schemas).register path schema := by
  rw [ofList, List.foldl_append]
  rfl

/-- A path stands where it first stands in the list. -/
theorem paths_ofList (schemas : List (String × Json)) :
    (ofList schemas).paths = (Members.names schemas).eraseDups := by
  induction schemas using List.reverseRecOn with
  | nil => rfl
  | append_singleton schemas s ih =>
    obtain ⟨path, schema⟩ := s
    have hnames : Members.names (schemas ++ [(path, schema)]) = Members.names schemas ++ [path] :=
      List.map_append
    rw [ofList_concat, paths_register, ih, hnames, Members.eraseDups_concat]
    exact if_congr List.mem_eraseDups rfl rfl

/-- Of the schemas under one path, the first is kept. -/
theorem get?_ofList (schemas : List (String × Json)) (path : String) :
    (ofList schemas).get? path = Members.get? schemas path := by
  induction schemas using List.reverseRecOn with
  | nil => rfl
  | append_singleton schemas s ih =>
    obtain ⟨new, schema⟩ := s
    rw [ofList_concat]
    cases hget : Members.get? schemas path with
    | some v =>
      rw [Members.get?_append_of_some _ hget]
      exact get?_of_le (le_register _ _ _) (ih.trans hget)
    | none =>
      have hmem : path ∉ Members.names schemas := by
        rw [← Members.contains_iff, Members.contains, hget]
        exact Bool.false_ne_true
      rw [Members.get?_append_of_not_mem _ hmem]
      have hpaths : path ∉ (ofList schemas).paths := by
        rw [paths_ofList, List.mem_eraseDups]
        exact hmem
      by_cases hnew : (ofList schemas).contains new = true
      · have hne : new ≠ path := by
          rintro rfl
          exact hpaths (contains_iff.1 hnew)
        rw [register_of_contains hnew, ih, hget, Members.get?, if_neg hne, Members.get?_nil]
      · rw [get?, entries_register_of_not_contains hnew, Members.get?_append_of_not_mem _ hpaths]

end Registry

namespace Converter

/-! ## Steps of a session -/

/-- What happens to a converter: a call, or other options over the same registry. -/
inductive Step where
  | call (x : Call)
  | rebuild (o : Options)

/-- A converter with other options over the same registry; options that cannot be used leave the
converter as it is. -/
def rebuild (c : Converter) (o : Options) : Converter :=
  match create o c.registry with
  | .ok c => c
  | .error _ => c

/-- The converter after a step, whatever came of it. -/
def step (c : Converter) : Step → Converter
  | .call x => (c.call x).2
  | .rebuild o => c.rebuild o

def stepAll (c : Converter) (steps : List Step) : Converter := steps.foldl step c

theorem registry_rebuild (c : Converter) (o : Options) : (c.rebuild o).registry = c.registry := by
  unfold rebuild create
  cases o.validate <;> rfl

theorem call_extends (c : Converter) (x : Call) : c.registry ≤ (c.call x).2.registry := by
  obtain ⟨r, hr, hle⟩ := c.callAll_extends [x]
  rw [callAll_cons] at hr
  change (c.call x).2 = _ at hr
  rw [hr]
  exact hle

theorem step_extends (c : Converter) : ∀ s : Step, c.registry ≤ (c.step s).registry
  | .call x => c.call_extends x
  | .rebuild o => le_of_eq (c.registry_rebuild o).symm

theorem stepAll_extends (steps : List Step) : ∀ c : Converter,
    c.registry ≤ (c.stepAll steps).registry := by
  induction steps with
  | nil => exact fun c => le_rfl
  | cons s steps ih => exact fun c => le_trans (c.step_extends s) (ih (c.step s))

/-- **A registry is append-only, and the first writer of a path wins.**  At every point of a session
no path stands twice, and what is there stands at the head of what is there after the next step; so
an entry keeps its position, and a path its schema, through all later steps.  A session that starts
from a list of schemas starts with the first one under each path. -/
theorem stepAll_keeps (o : Options) (seed : List (String × Json)) (steps : List Step) (s : Step)
    (later : List Step) :
    let start : Converter := ⟨o, .ofList seed⟩
    let c := start.stepAll steps
    (start.registry.paths = (Members.names seed).eraseDups ∧
      ∀ path, start.registry.get? path = Members.get? seed path) ∧
    c.registry.paths.Nodup ∧
    c.registry.entries <+: (c.step s).registry.entries ∧
    (∀ (i : Nat) (entry : String × Json), c.registry.entries[i]? = some entry →
      (c.stepAll later).registry.entries[i]? = some entry) ∧
    ∀ path schema, c.registry.get? path = some schema →
      (c.stepAll later).registry.get? path = some schema := by
  intro start c
  have hlater := stepAll_extends later c
  refine ⟨⟨Registry.paths_ofList seed, Registry.get?_ofList seed⟩, c.registry.nodup_paths,
    c.step_extends s, fun i entry hi => ?_, fun path schema => Registry.get?_of_le hlater⟩
  obtain ⟨hlt, -⟩ := List.getElem?_eq_some_iff.1 hi
  obtain ⟨added, hadded⟩ := Registry.le_iff.1 hlater
  rw [hadded, List.getElem?_append_left hlt]
  exact hi

/-- A seed with a repeated path, then a call that fails, other options, and a node that its handler
drops after it had another description converted, which failed with a named one below it
registered. -/
theorem stepAll_keeps_dropped :
    let named := (Description.ofType "string").withMeta [("extract", .string "B")]
    let failing := ((Description.ofType "object").withChild "b" named).withChild "c" (.ofType "symbol")
    let dropping : Handler := fun _ _ _ => .convert failing fun _ => .finish none
    let start : Converter := ⟨{}, .ofList [("/A", .bool true), ("/A", .bool false)]⟩
    let c := start.stepAll [.call (.node (.ofType "any")),
      .rebuild (Options.withHandler { extract := true } "any" dropping)]
    let s : Step := .call (.node (.ofType "any"))
    c.registry.entries = [("/A", .bool true)] ∧ (c.step s).registry.paths = ["/A", "/B"] ∧
      (c.stepAll [s, .rebuild {}]).registry.get? "/A" = some (.bool true) ∧
      (c.stepAll [s, .rebuild {}]).registry.entries[0]? = some ("/A", .bool true) :=
  ⟨rfl, rfl, (stepAll_keeps {} [("/A", .bool true), ("/A", .bool false)] _
      (.call (.node (.ofType "any"))) _).2.2.2.2 "/A" _ rfl,
    (stepAll_keeps {} [("/A", .bool true), ("/A", .bool false)] _
      (.call (.node (.ofType "any"))) _).2.2.2.1 0 _ rfl⟩

end Converter
end Schemata
