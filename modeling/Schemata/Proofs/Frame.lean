import Schemata.Description.Build
import Schemata.Proofs.Paths
/-!
# Frame — what a conversion reads of a registry

A conversion asks a registry one thing only: whether a path of its own is taken.  So it does the same
from two registries that agree on those paths, whatever else they hold: it gives the same, and adds
the same entries, also when it fails.  Two conversions without a path in common do not notice each
other, and their order makes no difference to what they give (`Description.convert_frame`).
-/
namespace Schemata

namespace Registry

/-- Each of these paths is taken in both registries or in none. -/
def AgreesOn (r : Registry) (paths : List String) (s : Registry) : Prop :=
  ∀ path ∈ paths, path ∈ r.paths ↔ path ∈ s.paths

theorem AgreesOn.contains_eq {r s : Registry} {paths : List String} (h : r.AgreesOn paths s)
    {path : String} (hpath : path ∈ paths) : r.contains path = s.contains path := by
  rw [Bool.eq_iff_iff, contains_iff, contains_iff]
  exact h path hpath

theorem AgreesOn.grow {r s r' s' : Registry} {paths : List String} {added : Members Json}
    (h : r.AgreesOn paths s) (hr : r'.entries = r.entries ++ added)
    (hs : s'.entries = s.entries ++ added) : r'.AgreesOn paths s' := by
  intro path hpath
  rw [paths_eq_append hr, paths_eq_append hs, List.mem_append, List.mem_append, h path hpath]

end Registry

namespace Conversion

/-- **A conversion that reads some paths only**: from registries that agree on them it ends alike,
and adds the same entries to both. -/
def Framed (paths : List String) {α : Type} (c : Conversion α) : Prop :=
  ∀ r s, r.AgreesOn paths s → (c.run r).1 = (c.run s).1 ∧ ∃ added,
    (c.run r).2.entries = r.entries ++ added ∧ (c.run s).2.entries = s.entries ++ added

theorem closed_framed (paths : List String) : Closed fun _ c => c.Framed paths where
  lift x r s _ := by
    rw [run_lift, run_lift]
    exact ⟨rfl, [], (List.append_nil _).symm, (List.append_nil _).symm⟩
  bind := by
    intro α β c next hc hnext r s h
    have hboth := hc r s h
    rcases hcr : c.run r with ⟨x, r'⟩
    rcases hcs : c.run s with ⟨y, s'⟩
    rw [hcr, hcs] at hboth
    obtain ⟨rfl, added, hr, hs⟩ := hboth
    cases x with
    | error e =>
      rw [run_bind_of_error hcr, run_bind_of_error hcs]
      exact ⟨rfl, added, hr, hs⟩
    | ok a =>
      -- What the first part added it added to both, so they still agree when the second begins.
      obtain ⟨hresult, more, hr', hs'⟩ := hnext a r' s' (h.grow hr hs)
      rw [run_bind_of_ok hcr, run_bind_of_ok hcs]
      refine ⟨hresult, added ++ more, ?_, ?_⟩
      · rw [hr', hr, List.append_assoc]
      · rw [hs', hs, List.append_assoc]

theorem isTaken_framed {paths : List String} {path : String} (hpath : path ∈ paths) :
    (isTaken path).Framed paths := by
  intro r s h
  rw [run_isTaken, run_isTaken, h.contains_eq hpath]
  exact ⟨rfl, [], (List.append_nil _).symm, (List.append_nil _).symm⟩

theorem register_framed {paths : List String} {path : String} (schema : Json)
    (hpath : path ∈ paths) : (register path schema).Framed paths := by
  intro r s h
  have hcontains := h.contains_eq hpath
  rw [run_register, run_register]
  refine ⟨rfl, ?_⟩
  by_cases hr : r.contains path = true
  · have hs : s.contains path = true := hcontains ▸ hr
    rw [Registry.register_of_contains hr, Registry.register_of_contains hs]
    exact ⟨[], (List.append_nil _).symm, (List.append_nil _).symm⟩
  · have hs : ¬s.contains path = true := hcontains ▸ hr
    exact ⟨_, Registry.entries_register_of_not_contains hr schema,
      Registry.entries_register_of_not_contains hs schema⟩

theorem local_framed : Local fun paths _ c => c.Framed paths where
  closed := closed_framed
  mono := fun h hc r s hagree => hc r s fun path hp => hagree path (h hp)
  isTaken := isTaken_framed
  register := register_framed

end Conversion

namespace Description

open Conversion (local_framed)

variable {o : Options} {d e : Description}

theorem convert_framed (ho : o.handlers = []) (d : Description) :
    (d.convert o).Framed (o.ownPaths d) :=
  local_framed.convertWith ho d

/-- A conversion is not noticed where none of its paths is looked up. -/
theorem convert_agreesOn (ho : o.handlers = []) (h : (o.ownPaths d).Disjoint (o.ownPaths e))
    (r : Registry) : r.AgreesOn (o.ownPaths e) ((d.convert o).run r).2 := by
  intro path he
  constructor
  · exact Registry.paths_subset (d.convert_extends o r)
  · intro hp
    exact (convert_within_ownPaths ho d r path hp).resolve_right fun hd => h hd he

/-- **The frame of a conversion.**  From registries that agree on its own paths it gives the same,
and adds the same entries to both, none without extraction.  Before or after a conversion with other
paths it gives the same, and what the two add is the same in either order. -/
theorem convert_frame (ho : o.handlers = []) {r s : Registry} (h : r.AgreesOn (o.ownPaths d) s) :
    ((d.convert o).run r).1 = ((d.convert o).run s).1 ∧
    (∃ added, ((d.convert o).run r).2.entries = r.entries ++ added ∧
      ((d.convert o).run s).2.entries = s.entries ++ added ∧ (o.extract = false → added = [])) ∧
    ∀ e : Description, (o.ownPaths d).Disjoint (o.ownPaths e) →
      let first := (d.convert o).run r
      let second := (e.convert o).run first.2
      let first' := (e.convert o).run r
      let second' := (d.convert o).run first'.2
      first.1 = second'.1 ∧ second.1 = first'.1 ∧
        ∃ ofD ofE, second.2.entries = r.entries ++ ofD ++ ofE ∧
          second'.2.entries = r.entries ++ ofE ++ ofD := by
  obtain ⟨hresult, added, hr, hs⟩ := convert_framed ho d r s h
  refine ⟨hresult, ⟨added, hr, hs, fun hextract => ?_⟩, fun e hdisjoint => ?_⟩
  · obtain ⟨-, hnew⟩ := Registry.nodup_added hr
    rw [List.eq_nil_iff_forall_not_mem]
    intro entry hentry
    have hpath : entry.1 ∈ Members.names added := List.mem_map_of_mem hentry
    have hown : entry.1 ∈ r.paths ∨ entry.1 ∈ o.ownPaths d := by
      refine convert_within_ownPaths ho d r entry.1 ?_
      rw [Registry.paths_eq_append hr]
      exact List.mem_append_right _ hpath
    rw [Options.ownPaths_of_off hextract] at hown
    exact hown.elim (hnew _ hpath) List.not_mem_nil
  · intro first second first' second'
    -- Each of the two runs from a registry that the other has made longer.
    obtain ⟨hd, ofD, hfirst, hsecond'⟩ :=
      convert_framed ho d r first'.2 (convert_agreesOn ho (List.disjoint_symm hdisjoint) r)
    obtain ⟨he, ofE, hfirst', hsecond⟩ :=
      convert_framed ho e r first.2 (convert_agreesOn ho hdisjoint r)
    refine ⟨hd, he.symm, ofD, ofE, ?_, ?_⟩
    · rw [hsecond, hfirst]
    · rw [hsecond', hfirst']

/-- A description that fails after its named child is registered, from registries that hold other
schemas. -/
theorem convert_frame_failed :
    let o : Options := { extract := true }
    let child := (ofType "string").withMeta [("extract", .string "A")]
    let d := ((ofType "object").withChild "a" child).withChild "b" (ofType "symbol")
    let e := (ofType "number").withMeta [("extract", .string "B")]
    let r : Registry := .ofList [("/B", .bool true)]
    o.handlers = [] ∧ r.AgreesOn (o.ownPaths d) {} ∧
      (∃ added, ((d.convert o).run r).2.entries = r.entries ++ added ∧
        ((d.convert o).run {}).2.entries = added) ∧
      (o.ownPaths d).Disjoint (o.ownPaths e) ∧
      ((d.convert o).run ((e.convert o).run r).2).1 = .error (.unknownType "symbol") := by
  intro o child d e r
  have hagrees : r.AgreesOn (o.ownPaths d) {} := by
    intro path hp
    obtain rfl : path = "/A" := List.mem_singleton.1 hp
    decide
  have hdisjoint : (o.ownPaths d).Disjoint (o.ownPaths e) :=
    List.singleton_disjoint.2 (by decide : "/A" ∉ ["/B"])
  obtain ⟨-, ⟨added, hr, hs, -⟩, horder⟩ := convert_frame (o := o) rfl hagrees
  exact ⟨rfl, hagrees, ⟨added, hr, hs⟩, hdisjoint, (horder e hdisjoint).1.symm⟩

end Description
end Schemata
