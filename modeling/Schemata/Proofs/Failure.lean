import Schemata.Proofs.Paths
import Schemata.Proofs.Session
/-!
# Failure — what a call that fails leaves behind

A call that fails gives nothing, but what was registered before the failure stays in the registry: a
named node is registered as soon as it is converted, and whatever is refused may come after it.  So
a failure leaves the registry as it was only where nothing below the root can be registered, and
otherwise it may leave schemas of named nodes there (`Converter.call_failed`).
-/
namespace Schemata

namespace Registry

theorem eq_of_paths_subset {r s : Registry} (hle : r ≤ s) (h : ∀ path ∈ s.paths, path ∈ r.paths) :
    s = r := by
  obtain ⟨added, hadded⟩ := le_iff.1 hle
  have hnone : added = [] := by
    cases added with
    | nil => rfl
    | cons new rest =>
      have hnew : new.1 ∈ Members.names (new :: rest) := List.mem_cons_self
      have hpath : new.1 ∈ s.paths := by
        rw [paths_eq_append hadded]
        exact List.mem_append_right _ hnew
      exact absurd (h new.1 hpath) ((nodup_added hadded).2 new.1 hnew)
  rw [hnone, List.append_nil] at hadded
  cases r
  cases s
  cases hadded
  rfl

end Registry

namespace Description

variable {o : Options} {other : Description → Conversion (Option Json)}

open Conversion (Within lasting_within local_within)

/-! ## What is registered below the root -/

/-- Without handlers, a conversion that fails registers below its root only. -/
theorem convertWith_error_within (ho : o.handlers = []) {d : Description} {r r' : Registry}
    {e : ConvertError} (h : (d.convertWith o other).run r = (.error e, r')) :
    ∀ path ∈ r'.paths, path ∈ r.paths ∨ path ∈ o.pathsOf d.belowNodes := by
  have hbelow : (d.conversionsBelow o other).All fun _ c => c.Within (· ∈ o.pathsOf d.belowNodes) :=
    (lasting_within _).conversionsBelow fun e he =>
      (local_within.convertWith ho e).mono fun path hp =>
        Options.pathsOf_mono (nodes_subset_of_mem_directlyBelow he) (o.ownPaths_subset_pathsOf e hp)
  rw [convertWith_eq] at h
  cases hk : Kind.ofName? d.typeName with
  | none =>
    have hwithin : (convertNode o other d (d.conversionsBelow o other)).Within _ :=
      (lasting_within (· ∈ o.pathsOf d.belowNodes)).unknownNode (Options.resolve_of_unknown ho hk) _
    have hpaths := hwithin r
    rw [h] at hpaths
    exact hpaths
  | some kind =>
    rw [convertNode_of_kind (Options.resolve_of_kind ho hk)] at h
    have hwithin := (lasting_within _).kind kind o.toSettings d.toTraits hbelow
      (d.commonFragment d.leadingFragment) r
    -- A node that fails fails before it is registered itself.
    cases Conversion.ending_of_run h with
    | failed hrun =>
      rw [hrun] at hwithin
      exact hwithin

end Description

namespace Converter

/-- **What a call that fails leaves behind.**  The options stay, and what was registered stays at
the head of the registry.  Without extraction the converter is as it was, with whatever handlers.
Without handlers a path that is new to the registry is that of a named node below the root; so the
converter is as it was when the paths of all those are taken. -/
theorem call_failed {c c₁ : Converter} {x : Call} {e : ConvertError}
    (h : c.call x = (.error e, c₁)) :
    c₁.options = c.options ∧ c.registry ≤ c₁.registry ∧
    (c.options.extract = false → c₁ = c) ∧
    (c.options.handlers = [] →
      (∀ path ∈ c₁.registry.paths, path ∉ c.registry.paths →
        ∃ d, x.read = .ok d ∧ path ∈ c.options.pathsOf d.belowNodes) ∧
      ((∀ d, x.read = .ok d → c.options.pathsOf d.belowNodes ⊆ c.registry.paths) → c₁ = c)) := by
  cases hx : x.read with
  | error e' =>
    rw [call_of_refused hx, Prod.mk.injEq] at h
    obtain ⟨-, rfl⟩ := h
    exact ⟨rfl, le_rfl, fun _ => rfl, fun _ => ⟨fun path hp hn => absurd hp hn, fun _ => rfl⟩⟩
  | ok d =>
    obtain ⟨o, r⟩ := c
    rw [call_of_read hx, convertDescription_eq, Prod.mk.injEq] at h
    obtain ⟨herror, rfl⟩ := h
    dsimp only at herror ⊢
    have hle := d.convert_extends o r
    have hsame : ∀ {paths : List String},
        (∀ path ∈ ((d.convert o).run r).2.paths, path ∈ r.paths ∨ path ∈ paths) →
        paths ⊆ r.paths → (⟨o, ((d.convert o).run r).2⟩ : Converter) = ⟨o, r⟩ :=
      fun hnew htaken => congrArg _ (Registry.eq_of_paths_subset hle fun path hp =>
        (hnew path hp).elim id fun hp => htaken hp)
    refine ⟨rfl, hle, fun hextract => ?_, fun ho => ?_⟩
    · have hnone : ∀ e path, o.path? e = some path → path ∈ ([] : List String) :=
        fun e path he => by simp [Options.path?_of_off hextract e] at he
      exact hsame (d.convert_within hnone r) (List.nil_subset _)
    · have hnew := Description.convertWith_error_within ho (Prod.ext herror rfl)
      exact ⟨fun path hp hn => ⟨d, rfl, (hnew path hp).resolve_left hn⟩,
        fun htaken => hsame hnew (htaken d rfl)⟩

/-- A named child is registered before its sibling is refused.  When its path was taken before, the
failure leaves the converter as it was. -/
theorem call_failed_taken :
    let named := (Description.ofType "string").withMeta [("extract", .string "A")]
    let node := ((Description.ofType "object").withChild "a" named).withChild "b" (.ofType "symbol")
    let c : Converter := ⟨{ extract := true }, .ofList [("/A", .bool true)]⟩
    (c.call (.node node)).1 = .error (.unknownType "symbol") ∧ (c.call (.node node)).2 = c :=
  ⟨rfl, ((call_failed (Prod.ext rfl rfl)).2.2.2 rfl).2 fun d hd => by cases hd; decide⟩

/-- **A failure can leave something behind**: a named child is registered before its sibling is
refused. -/
theorem call_failed_registers :
    let named := (Description.ofType "string").withMeta [("extract", .string "A")]
    let node := ((Description.ofType "object").withChild "a" named).withChild "b" (.ofType "symbol")
    let c : Converter := ⟨{ extract := true }, {}⟩
    (c.call (.node node)).1 = .error (.unknownType "symbol") ∧
      (c.call (.node node)).2.registry.entries = [("/A", .object [("type", .string "string")])] ∧
      (c.call (.node node)).2.registry ≠ c.registry :=
  ⟨rfl, rfl, fun h => by cases congrArg Registry.entries h⟩

end Converter
end Schemata
