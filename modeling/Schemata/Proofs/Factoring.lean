import Schemata.Description.Build
import Schemata.Proofs.Closed
import Schemata.Proofs.Naming
/-!
# Factoring — registration is the last step of a conversion

A node with a name is converted as if it had none, and then what it became is registered: there is
no other trace of the name, whether the node was written, or failed, or a descendant took its path
meanwhile (`Description.convert_named`).

Both conversions run the same conversions below the node, over fragments that differ in the name
only.  They go through the kind in step.
-/
namespace Schemata

/-- Results that are alike: related, or the same error. -/
inductive Alike {α β : Type} (Q : α → β → Prop) :
    Except ConvertError α → Except ConvertError β → Prop where
  | ok {a : α} {b : β} : Q a b → Alike Q (.ok a) (.ok b)
  | error {e : ConvertError} : Alike Q (.error e) (.error e)

theorem alike_map {α β γ : Type} {Q : β → γ → Prop} (x : Except ConvertError α) {g : α → β}
    {g' : α → γ} (h : ∀ a, Q (g a) (g' a)) : Alike Q (x.map g) (x.map g') := by
  cases x with
  | error e => exact .error
  | ok a => exact .ok (h a)

namespace Conversion

variable {α β γ : Type} {Q : β → γ → Prop}

/-- **Two conversions in step**: from every registry they end alike, and leave the same registry. -/
def InStep (Q : β → γ → Prop) (c : Conversion β) (d : Conversion γ) : Prop :=
  ∀ r, (c.run r).2 = (d.run r).2 ∧ Alike Q (c.run r).1 (d.run r).1

theorem inStep_lift {x : Except ConvertError β} {y : Except ConvertError γ} (h : Alike Q x y) :
    InStep Q (lift x) (lift y) := by
  intro r
  rw [run_lift, run_lift]
  exact ⟨rfl, h⟩

theorem inStep_bind (c : Conversion α) {next : α → Conversion β} {next' : α → Conversion γ}
    (h : ∀ a, InStep Q (next a) (next' a)) : InStep Q (c >>= next) (c >>= next') := by
  intro r
  rcases hc : c.run r with ⟨e | a, r'⟩
  · rw [run_bind_of_error hc, run_bind_of_error hc]
    exact ⟨rfl, .error⟩
  · rw [run_bind_of_ok hc, run_bind_of_ok hc]
    exact h a r'

theorem inStep_map (c : Conversion α) {g : α → β} {g' : α → γ} (h : ∀ a, Q (g a) (g' a)) :
    InStep Q (g <$> c) (g' <$> c) := by
  rw [← bind_pure_comp, ← bind_pure_comp]
  exact inStep_bind c fun a _ => ⟨rfl, .ok (h a)⟩

end Conversion

/-! ## Kinds -/

namespace Fragment.Named

open Conversion (InStep)

variable {name : String} {f g : Fragment}

theorem tighten (h : Named name f g) (keyword : String) (edge : Nat) (side : Keywords.Side) :
    Named name (Keywords.tighten f keyword edge side) (Keywords.tighten g keyword edge side) := by
  have hstricter : Keywords.holdsStricter f keyword edge side =
      Keywords.holdsStricter g keyword edge side := by
    unfold Keywords.holdsStricter get?
    rw [h.keywords_eq]
  unfold Keywords.tighten
  rw [hstricter]
  split
  · exact h
  · exact h.insert _ _

theorem impliedBy? (h : Named name f g) {rule : String} {apply : Fragment → Fragment}
    (ha : Keywords.impliedBy? rule = some apply) : Named name (apply f) (apply g) := by
  unfold Keywords.impliedBy? at ha
  split at ha <;> cases ha
  · exact h.insert _ _
  · exact (h.insert _ _).insert _ _
  · exact h.tighten _ _ _
  · exact h.tighten _ _ _
  · exact ((h.insert _ _).tighten _ _ _).tighten _ _ _

theorem applyNumberRule (h : Named name f g) (settings : Settings) (rule : Rule) :
    Alike (Named name) (Keywords.applyNumberRule settings f rule)
      (Keywords.applyNumberRule settings g rule) := by
  unfold Keywords.applyNumberRule
  cases Keywords.boundKeyword? rule.name with
  | some keyword => exact alike_map _ fun n => h.insert keyword n
  | none =>
    cases hi : Keywords.impliedBy? rule.name with
    | some apply => exact .ok (h.impliedBy? hi)
    | none => exact alike_map _ fun _ => h

theorem applyNumberRules (settings : Settings) : ∀ (rules : List Rule) {f g : Fragment},
    Named name f g → Alike (Named name) (rules.foldlM (Keywords.applyNumberRule settings) f)
      (rules.foldlM (Keywords.applyNumberRule settings) g)
  | [], _, _, h => .ok h
  | rule :: rules, f, g, h => by
    rw [List.foldlM_cons, List.foldlM_cons]
    have hrule := h.applyNumberRule settings rule
    rcases hf : Keywords.applyNumberRule settings f rule with e | f' <;>
      rcases hg : Keywords.applyNumberRule settings g rule with e' | g' <;>
      rw [hf, hg] at hrule <;> cases hrule
    · exact .error
    · rename_i h'
      exact applyNumberRules settings rules h'

/-- **A kind does the same with and without the name.** -/
theorem kind (h : Named name f g) (kind : Kind) (settings : Settings) (t : Traits)
    (below : Below) :
    InStep (Named name) (kind.convert settings t below f) (kind.convert settings t below g) := by
  have hsame : kind ∈ Kind.overlaying →
      InStep (Named name) (kind.convert settings t below f) (kind.convert settings t below g) := by
    intro hkind
    obtain ⟨own, hown⟩ := Kind.writes hkind settings t below
    rw [hown, hown]
    exact Conversion.inStep_map own fun ms => h.insertAll ms.members
  cases kind with
  | number => exact Conversion.inStep_lift (applyNumberRules settings t.rules (h.insert _ _))
  | string | boolean | binary | date | array | object => exact hsame (by decide)
  | alternatives =>
    obtain ⟨hterm, hrest⟩ := h.takeTerm
    change InStep _ (Keywords.applyAlternatives _ _ _ _) (Keywords.applyAlternatives _ _ _ _)
    rw [Keywords.applyAlternatives_eq, Keywords.applyAlternatives_eq, hterm]
    refine Conversion.inStep_bind _ fun _ => Conversion.inStep_bind _ fun schemas r => ?_
    exact ⟨rfl, .ok (hrest.insert _ _)⟩

end Fragment.Named

/-! ## A node -/

namespace Description

/-- The description without a name to register its node under. -/
def unnamed (d : Description) : Description := { d with toTraits := d.toTraits.unnamed }

variable {o : Options} {d : Description}

/-- A node of a kind with a name is registered, and the same one without is written.  The
conversions of the two are in step. -/
theorem convert_of_name {kind : Kind} (hextract : o.extract = true)
    (hresolve : o.resolve d.typeName = some (.inr kind)) {name : String}
    (hname : d.name? = some name) :
    ∃ c c', Conversion.InStep (Fragment.Named name) c c' ∧
      d.convert o = Conversion.extracted (o.extractionPath name) (some <$> c) ∧
      d.unnamed.convert o = Conversion.inline (some <$> c') := by
  have hin := (Traits.named_commonFragment hname).kind kind o.toSettings d.toTraits
    (d.conversionsBelow o o.elsewhere)
  refine ⟨_, _, hin, ?_, ?_⟩
  · change d.convertWith o o.elsewhere = _
    rw [convertWith_eq, convertNode_of_kind hresolve, Traits.extraction?_leadingFragment, hname,
      if_pos hextract]
    rfl
  · have hnone : o.toSettings.extraction? d.unnamed.leadingFragment = none :=
      (Traits.named_leadingFragment hname).named.extraction?_eq_none o.toSettings
    have hresolve' : o.resolve d.unnamed.typeName = some (.inr kind) := hresolve
    change d.unnamed.convertWith o o.elsewhere = _
    rw [convertWith_eq, convertNode_of_kind hresolve', hnone]
    rfl

/-- **Extraction is inline conversion and one registration.**  A node of a kind with a name whose
path is free fails as the same node without the name does, with the same registry.  Otherwise it
leaves a reference, and the registry that the other leaves, with what the other becomes at its end
unless a descendant took the path. -/
theorem convert_named {r : Registry} {name : String} (hextract : o.extract = true)
    (hoverride : Members.get? o.handlers d.typeName = none)
    (hkind : (Kind.ofName? d.typeName).isSome) (hname : d.name? = some name)
    (hfree : o.extractionPath name ∉ r.paths) :
    (∀ e r₁, (d.convert o).run r = (.error e, r₁) ↔ (d.unnamed.convert o).run r = (.error e, r₁)) ∧
      ∀ result r₁, (d.unnamed.convert o).run r = (.ok result, r₁) →
        ∃ v r₂, result = some v ∧
          (d.convert o).run r = (.ok (some (.reference (o.extractionPath name))), r₂) ∧
          (o.extractionPath name ∈ r₁.paths → r₂ = r₁) ∧
          (o.extractionPath name ∉ r₁.paths →
            r₂.entries = r₁.entries ++ [(o.extractionPath name, v)]) := by
  obtain ⟨kind, hk⟩ := Option.isSome_iff_exists.1 hkind
  have hresolve : o.resolve d.typeName = some (.inr kind) := by
    rw [Options.resolve, hoverride, hk]
    rfl
  obtain ⟨c, c', hin, hc, hc'⟩ := convert_of_name hextract hresolve hname
  rw [hc, hc', Conversion.inline_map_some, Conversion.run_map,
    Conversion.run_extracted_of_not_contains (mt Registry.contains_iff.1 hfree), Conversion.run_map]
  obtain ⟨hregistry, halike⟩ := hin r
  rcases hrun : c.run r with ⟨x, r'⟩
  rcases hrun' : c'.run r with ⟨y, s'⟩
  rw [hrun, hrun'] at hregistry halike
  cases hregistry
  cases halike with
  | error => exact ⟨fun _ _ => Iff.rfl, fun _ _ h => by cases h⟩
  | @ok f g h =>
    refine ⟨fun _ _ => iff_of_false (by simp) (by simp), fun result r₁ hresult => ?_⟩
    cases hresult
    refine ⟨g.toJson, r'.register (o.extractionPath name) g.toJson, rfl, ?_, fun hp => ?_,
      fun hp => ?_⟩
    · rw [← h.toJson_takeExtract]
    · exact Registry.register_of_contains (Registry.contains_iff.2 hp) _
    · exact Registry.entries_register_of_not_contains (mt Registry.contains_iff.1 hp) _

/-- The metadata of an alternation names it and its combinator, and nothing else: both are taken out
of the bag, which is not written. -/
theorem convert_named_alternatives :
    let o : Options := { extract := true }
    let d := ((ofType "alternatives").withMeta [("extract", .string "Either"),
      ("term", .string "oneOf")]).withAlternative (ofType "string")
    let written := Json.object [("oneOf", .array [.object [("type", .string "string")]])]
    (d.unnamed.convert o).run {} = (.ok (some written), {}) ∧
      ∃ r₂, (d.convert o).run {} = (.ok (some (.reference "/Either")), r₂) ∧
        r₂.entries = [("/Either", written)] := by
  intro o d written
  have hrun : (d.unnamed.convert o).run {} = (.ok (some written), {}) := rfl
  obtain ⟨v, r₂, hv, hnamed, -, hnew⟩ := (convert_named (o := o) (d := d) (r := {}) rfl rfl rfl rfl
    List.not_mem_nil).2 _ _ hrun
  cases hv
  exact ⟨hrun, r₂, hnamed, hnew List.not_mem_nil⟩

end Description
end Schemata
