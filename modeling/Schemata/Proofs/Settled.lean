import Schemata.Proofs.Session
/-!
# Settled — what was converted once is settled

A conversion that succeeded leaves a registry from which it succeeds again with the same result and
nothing to add, and so from every registry above.  The second run takes other ways than the first:
where a named node was converted, its path is taken now.  Without handlers that makes no difference,
as only a handler can drop a node of a kind.
-/
namespace Schemata

namespace Conversion

/-- **A conversion that settles**: from every registry above the one it left, it succeeds with the
same result and adds nothing. -/
def Settles {α : Type} (c : Conversion α) : Prop :=
  c.Extends ∧ ∀ r a r', c.run r = (.ok a, r') → ∀ s, r' ≤ s → c.run s = (.ok a, s)

theorem closed_settles : Closed @Settles where
  lift x := by
    refine ⟨lasting_extends.lift x, fun r a r' h s _ => ?_⟩
    rw [run_lift] at h ⊢
    cases h
    rfl
  bind := by
    intro α β c next hc hnext
    refine ⟨lasting_extends.bind hc.1 fun a => (hnext a).1, fun r b r'' h s hs => ?_⟩
    obtain ⟨a, r', hrun, hrest⟩ := exists_of_bind_ok h
    have hr : r' ≤ r'' := by
      have hle := (hnext a).1 r'
      rwa [hrest] at hle
    rw [run_bind_of_ok (hc.2 r a r' hrun s (le_trans hr hs))]
    exact (hnext a).2 r' b r'' hrest s hs

/-- A node that is registered settles: its path is taken from then on. -/
theorem extracted_settles (path : String) {c : Conversion Fragment} (hc : c.Settles) :
    (extracted path (some <$> c)).Settles := by
  have hsome : Extends (some <$> c) := lasting_extends.map some hc.1
  refine ⟨extracted_extends path hsome, fun r a r' h s hs => ?_⟩
  -- Either way the path is taken when the first run ends, and the result is the reference to it.
  suffices hdone : a = some (.reference path) ∧ r'.contains path = true by
    rw [hdone.1]
    exact run_extracted_of_contains (Registry.contains_of_le hs hdone.2) _
  change (placed (some path) (some <$> c)).run r = _ at h
  cases ending_of_run h with
  | written hpath => cases hpath
  | referred hpath htaken =>
    cases hpath
    exact ⟨rfl, htaken⟩
  | @registered _ f r₁ hpath =>
    cases hpath
    exact ⟨rfl, r₁.contains_register path _⟩

end Conversion

namespace Description

open Conversion (Settles closed_settles)

theorem convertNode_settles {o : Options} (ho : o.handlers = [])
    {other : Description → Conversion (Option Json)} (d : Description) (below : Below)
    (hb : below.All @Settles) : (convertNode o other d below).Settles := by
  refine closed_settles.convertNode_of_no_handlers ho hb fun c hc => ?_
  cases o.toSettings.extraction? d.leadingFragment with
  | none => exact closed_settles.inline (closed_settles.map some hc)
  | some path => exact Conversion.extracted_settles path hc

theorem convert_settles {o : Options} (ho : o.handlers = []) (d : Description) :
    (d.convert o).Settles :=
  closed_settles.convertWith (convertNode_settles ho) d

end Description

namespace Converter

/-- **A call that succeeded can be repeated at any time**: after whatever other calls, it gives what
it gave, and leaves the converter as it is. -/
theorem call_again {c c₁ : Converter} {x : Call} {result : Option Json}
    (ho : c.options.handlers = []) (h : c.call x = (.ok result, c₁)) (later : List Call) :
    (c₁.callAll later).call x = (.ok result, c₁.callAll later) := by
  cases hx : x.read with
  | error e =>
    rw [call_of_refused hx] at h
    cases h
  | ok d =>
    rw [call_of_read hx] at h ⊢
    rw [convertDescription_eq, Prod.mk.injEq] at h
    obtain ⟨hresult, rfl⟩ := h
    obtain ⟨s, hs, hle⟩ := callAll_extends
      ⟨c.options, ((d.convert c.options).run c.registry).2⟩ later
    have hagain : (d.convert c.options).run s = (.ok result, s) :=
      (d.convert_settles ho).2 c.registry result _ (Prod.ext hresult rfl) s hle
    rw [hs, convertDescription_eq, hagain]

/-- A named object whose child has the same name, converted again after a call that failed: the
child was registered first, and stays. -/
theorem call_again_same_name :
    let child := (Description.ofType "string").withMeta [("extract", .string "Node")]
    let node := (Description.ofType "object").withMeta [("extract", .string "Node")]
    let c : Converter := ⟨{ extract := true }, {}⟩
    let x : Call := .node (node.withChild "a" child)
    let later : List Call := [.node (.ofType "unknown")]
    (c.call x).2.registry.entries = [("/Node", .object [("type", .string "string")])] ∧
      ((c.call x).2.callAll later).call x =
        (.ok (some (.reference "/Node")), (c.call x).2.callAll later) := by
  intro child node c x later
  exact ⟨rfl, call_again (c := c) (x := x) rfl rfl later⟩

end Converter
end Schemata
