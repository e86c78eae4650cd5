import Schemata.Proofs.Closed
import Schemata.Proofs.Naming
/-!
# Paths — the part of a registry that a conversion uses

Without handlers a conversion looks paths of its own nodes up and registers under them, and touches
nothing else of a registry.  So a property that is known of one look-up and of one registration holds
of a whole tree, with the paths of its nodes (`Conversion.Local.convertWith`).

The first of them is what a conversion may register (`Conversion.Within`).
-/
namespace Schemata

theorem Settings.isAbsolute_extractionPath {s : Settings} (h : isAbsolute s.extractPath = true)
    (name : String) : isAbsolute (s.extractionPath name) = true := by
  unfold extractionPath
  split
  · assumption
  · simp only [isAbsolute, decide_eq_true_eq] at h ⊢
    rw [String.toList_append, List.head?_append, h]
    rfl

namespace Options

variable {o : Options} {d e : Description} {path : String}

theorem isAbsolute_extractPath {given : Options} (h : given.validate = .ok o) :
    Settings.isAbsolute o.extractPath = true := by
  unfold validate Settings.validate at h
  split at h
  · cases h
    exact (by decide : Settings.isAbsolute "/" = true)
  · split at h <;> cases h
    assumption

/-- The path under which a node is registered, when it is extracted. -/
def path? (o : Options) (d : Description) : Option String :=
  if o.extract then d.name?.map o.extractionPath else none

theorem extraction?_eq_path? (o : Options) (d : Description) :
    o.toSettings.extraction? d.leadingFragment = o.path? d :=
  Traits.extraction?_leadingFragment o.toSettings d.toTraits

theorem isAbsolute_of_path? {given : Options} (hvalid : given.validate = .ok o)
    (h : o.path? d = some path) : Settings.isAbsolute path = true := by
  unfold path? at h
  split at h
  · obtain ⟨name, -, rfl⟩ := Option.map_eq_some_iff.1 h
    exact Settings.isAbsolute_extractionPath (isAbsolute_extractPath hvalid) name
  · cases h

/-- The paths of all nodes of a tree that are extracted when they are converted. -/
def ownPaths (o : Options) (d : Description) : List String := d.nodes.filterMap o.path?

theorem mem_ownPaths : path ∈ o.ownPaths d ↔ ∃ n ∈ d.nodes, o.path? n = some path :=
  List.mem_filterMap

theorem mem_ownPaths_self (h : o.path? d = some path) : path ∈ o.ownPaths d :=
  mem_ownPaths.2 ⟨d, d.mem_nodes_self, h⟩

theorem ownPaths_subset_of_mem_directlyBelow (h : e ∈ d.directlyBelow) :
    o.ownPaths e ⊆ o.ownPaths d :=
  List.filterMap_subset _ (List.Subset.trans (Description.nodes_subset_of_mem_directlyBelow h)
    d.belowNodes_subset)

theorem ownPaths_subset_pathsOf (o : Options) (d : Description) :
    o.ownPaths d ⊆ o.pathsOf d.nodes := by
  intro path hp
  obtain ⟨n, hn, hpath⟩ := mem_ownPaths.1 hp
  unfold path? at hpath
  split at hpath
  · exact List.mem_filterMap.2 ⟨n, hn, hpath⟩
  · cases hpath

theorem path?_of_off (h : o.extract = false) (d : Description) : o.path? d = none := by
  simp [path?, h]

theorem ownPaths_of_off (h : o.extract = false) (d : Description) : o.ownPaths d = [] :=
  List.filterMap_eq_nil_iff.2 fun n _ => path?_of_off h n

end Options

namespace Conversion

/-- **A property of conversions that may use some paths only.** -/
structure Local (P : List String → (α : Type) → Conversion α → Prop) : Prop where
  closed : ∀ paths, Closed (P paths)
  mono : ∀ {fewer paths : List String} {α : Type} {c : Conversion α},
    fewer ⊆ paths → P fewer α c → P paths α c
  isTaken : ∀ {paths : List String} {path : String}, path ∈ paths → P paths _ (isTaken path)
  register : ∀ {paths : List String} {path : String} (schema : Json),
    path ∈ paths → P paths _ (register path schema)

/-- **A local property holds of a tree** with the paths of its nodes. -/
theorem Local.convertWith {P : List String → (α : Type) → Conversion α → Prop} (h : Local P)
    {o : Options} {other : Description → Conversion (Option Json)} (ho : o.handlers = [])
    (d : Description) : P (o.ownPaths d) _ (d.convertWith o other) := by
  induction d using Description.induction with
  | node d ih =>
    have hclosed := h.closed (o.ownPaths d)
    have hbelow : (d.conversionsBelow o other).All (P (o.ownPaths d)) :=
      hclosed.conversionsBelow fun e he =>
        h.mono (Options.ownPaths_subset_of_mem_directlyBelow he) (ih e he)
    rw [Description.convertWith_eq]
    refine hclosed.convertNode_of_no_handlers ho hbelow fun c hc => ?_
    have hsome := hclosed.map some hc
    rw [Options.extraction?_eq_path?]
    cases hpath : o.path? d with
    | none => exact hclosed.inline hsome
    | some path =>
      have hmem : path ∈ o.ownPaths d := Options.mem_ownPaths_self hpath
      exact hclosed.extracted (h.isTaken hmem) (fun schema => h.register schema hmem) hsome

/-! ## What may be registered -/

variable {α : Type} {P Q : String → Prop}

/-- A conversion that registers under paths of one sort only. -/
def Within (P : String → Prop) (c : Conversion α) : Prop :=
  ∀ r, ∀ path ∈ (c.run r).2.paths, path ∈ r.paths ∨ P path

theorem lasting_within (P : String → Prop) : Lasting fun _ c => c.Within P where
  lift x r path hp := by
    rw [run_lift] at hp
    exact .inl hp
  bind := by
    intro α β c next hc hnext r path hp
    rcases hrun : c.run r with ⟨e | a, r'⟩
    · have hr' := hc r
      rw [run_bind_of_error hrun] at hp
      rw [hrun] at hr'
      exact hr' path hp
    · have hr' := hc r
      rw [run_bind_of_ok hrun] at hp
      rw [hrun] at hr'
      exact (hnext a r' path hp).elim (hr' path) .inr
  attempt hc r := hc r

theorem Within.mono {c : Conversion α} (hc : c.Within P) (h : ∀ path, P path → Q path) :
    c.Within Q :=
  fun r path hp => (hc r path hp).imp id (h path)

theorem isTaken_within (path : String) : (isTaken path).Within P := fun _ _ hp => .inl hp

theorem register_within {path : String} (schema : Json) (hpath : P path) :
    (register path schema).Within P := by
  intro r other ho
  rw [run_register, Registry.mem_paths_register] at ho
  rcases ho with ho | rfl
  · exact .inl ho
  · exact .inr hpath

theorem local_within : Local fun paths _ c => c.Within (· ∈ paths) where
  closed := fun paths => (lasting_within (· ∈ paths)).toClosed
  mono := fun h hc => hc.mono fun _ hp => h hp
  isTaken := fun _ => isTaken_within _
  register := fun schema hpath => register_within schema hpath

end Conversion

namespace Description

open Conversion (Within lasting_within isTaken_within register_within local_within)

variable {o : Options}

/-- With whatever handlers, only paths of nodes are registered. -/
theorem convert_within {P : String → Prop} (hP : ∀ d path, o.path? d = some path → P path)
    (d : Description) : (d.convert o).Within P := by
  refine (lasting_within P).convert (fun d c hc => ?_) d
  rw [Options.extraction?_eq_path?]
  cases hpath : o.path? d with
  | none => exact (lasting_within P).inline hc
  | some path =>
    exact (lasting_within P).extracted (isTaken_within path)
      (fun schema => register_within schema (hP d path hpath)) hc

/-- Without handlers, only paths of nodes of the tree are. -/
theorem convert_within_ownPaths (ho : o.handlers = []) (d : Description) :
    (d.convert o).Within (· ∈ o.ownPaths d) :=
  local_within.convertWith ho d

end Description
end Schemata
