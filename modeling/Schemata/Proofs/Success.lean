import Schemata.Proofs.Paths
import Schemata.Proofs.Refusal
/-!
# Success — what a conversion that succeeded has converted

A conversion succeeds only when all conversions below it do.  A kind runs them one after the other,
in the order of `Description.visitedBy`, each from the registry that those before it left
(`Kind.convert_converts`).  So there are four ways in which a node without a handler succeeds, and
`Description.Success` lists them; the proofs about conversions that succeed start from there.
-/
namespace Schemata

/-- **Conversions one after the other**, all with success, from one registry to another. -/
inductive Succession (o : Options) : List Description → Registry → Registry → Prop where
  | nil {r : Registry} : Succession o [] r r
  | cons {d : Description} {ds : List Description} {v : Option Json} {r s t : Registry} :
    (d.convert o).run r = (.ok v, s) → Succession o ds s t → Succession o (d :: ds) r t

namespace Succession

variable {o : Options} {d : Description} {ds es : List Description} {r s t : Registry}

theorem append (h : Succession o ds r s) (h' : Succession o es s t) :
    Succession o (ds ++ es) r t := by
  induction h with
  | nil => exact h'
  | cons hd _ ih => exact .cons hd (ih h')

theorem split (h : Succession o (ds ++ es) r t) :
    ∃ s, Succession o ds r s ∧ Succession o es s t := by
  induction ds generalizing r with
  | nil => exact ⟨r, .nil, h⟩
  | cons d ds ih =>
    cases h with
    | cons hd h =>
      obtain ⟨s, hds, hes⟩ := ih h
      exact ⟨s, .cons hd hds, hes⟩

theorem eq_of_cons {v : Option Json} (hd : (d.convert o).run r = (.ok v, s))
    (h : Succession o (d :: ds) r t) : Succession o ds s t := by
  cases h with
  | cons hd' h =>
    rw [hd] at hd'
    cases hd'
    exact h

theorem unique (h : Succession o ds r s) (h' : Succession o ds r t) : s = t := by
  induction h with
  | nil =>
    cases h'
    rfl
  | cons hd _ ih => exact ih (eq_of_cons hd h')

theorem le (h : Succession o ds r s) : r ≤ s := by
  induction h with
  | nil => exact le_rfl
  | @cons d _ _ r _ _ hd _ ih =>
    have hstep := d.convert_extends o r
    rw [hd] at hstep
    exact le_trans hstep ih

end Succession

namespace Conversion

variable {o : Options} {α β : Type} {ds es : List Description}

/-- A conversion that, when it succeeds, has converted these descriptions and done nothing else to
the registry. -/
def Converts (o : Options) (ds : List Description) (c : Conversion α) : Prop :=
  ∀ r a r', c.run r = (.ok a, r') → Succession o ds r r'

theorem converts_lift (x : Except ConvertError α) : (lift x).Converts o [] := by
  intro r a r' h
  rw [run_lift] at h
  cases h
  exact .nil

theorem converts_pure (a : α) : (pure a : Conversion α).Converts o [] := converts_lift (.ok a)

theorem Converts.bind {c : Conversion α} {next : α → Conversion β} (hc : c.Converts o ds)
    (hnext : ∀ a, (next a).Converts o es) : (c >>= next).Converts o (ds ++ es) := by
  intro r b r'' h
  obtain ⟨a, r', hrun, hrest⟩ := exists_of_bind_ok h
  exact (hc r a r' hrun).append (hnext a r' b r'' hrest)

theorem Converts.bind_pure (f : α → β) {c : Conversion α} (hc : c.Converts o ds) :
    (c >>= fun a => pure (f a)).Converts o ds := by
  have h := hc.bind fun a => converts_pure (o := o) (f a)
  rwa [List.append_nil] at h

theorem Converts.map (f : α → β) {c : Conversion α} (hc : c.Converts o ds) :
    (f <$> c).Converts o ds := by
  rw [← bind_pure_comp]
  exact hc.bind_pure f

end Conversion

/-! ## Descriptions below a node -/

/-- The conversions below a node convert the descriptions of their lists. -/
structure Below.Converts (o : Options) (b : Below) (d : Description) : Prop where
  items : b.items.Converts o (d.items.getD [])
  orderedItems : b.orderedItems.Converts o (d.orderedItems.getD [])
  children : b.children.Converts o d.presentChildren
  patterns : b.patterns.Converts o ((d.patterns.getD []).map PatternRule.rule)
  branches : b.branches.Converts o ((d.alternatives.getD []).filterMap Alternative.schema?)

namespace Description

open Conversion (converts_lift converts_pure)

variable {o : Options}

theorem convert_eq (o : Options) (d : Description) :
    d.convert o = d.convertWith o o.elsewhere := rfl

theorem convertWith_converts (d : Description) :
    (d.convertWith o o.elsewhere).Converts o [d] :=
  fun _ _ _ h => .cons h .nil

theorem convertItems_converts : ∀ ds : List Description,
    (convertItems o o.elsewhere ds).Converts o ds
  | [] => converts_pure []
  | d :: ds => by
    rw [convertItems]
    exact (convertWith_converts d).bind fun _ => (convertItems_converts ds).bind_pure _

theorem convertChildren_converts : ∀ cs : List (String × Description),
    (convertChildren o o.elsewhere cs).Converts o
      ((cs.map Prod.snd).filter fun e => e.presence ≠ .forbidden)
  | [] => converts_pure []
  | (key, d) :: cs => by
    rw [convertChildren, List.map_cons]
    by_cases hpresence : d.presence = .forbidden
    · rw [if_pos hpresence, List.filter_cons_of_neg (by simpa using hpresence)]
      exact convertChildren_converts cs
    · rw [if_neg hpresence, List.filter_cons_of_pos (by simpa using hpresence)]
      exact (convertWith_converts d).bind fun _ => (convertChildren_converts cs).bind_pure _

theorem convertPatterns_converts : ∀ ps : List (PatternRule Description),
    (convertPatterns o o.elsewhere ps).Converts o (ps.map PatternRule.rule)
  | [] => converts_pure []
  | ⟨regex, schema, rule⟩ :: ps => by
    rw [convertPatterns]
    exact (converts_lift _).bind fun _ => (convertWith_converts rule).bind fun _ =>
      (convertPatterns_converts ps).bind_pure _

theorem convertBranches_converts : ∀ bs : List (Alternative Description),
    (convertBranches o o.elsewhere bs).Converts o (bs.filterMap Alternative.schema?)
  | [] => converts_pure []
  | .conditional _ :: bs => by
    intro r a r' h
    cases h
  | .schema d :: bs => by
    rw [convertBranches]
    exact (convertWith_converts d).bind fun _ => (convertBranches_converts bs).bind_pure _

theorem conversionsBelow_converts (d : Description) :
    (d.conversionsBelow o o.elsewhere).Converts o d := by
  have hitems : ∀ ds?, (convertItems? o o.elsewhere ds?).Converts o (ds?.getD []) := by
    rintro (_ | ds)
    · exact converts_pure []
    · exact convertItems_converts ds
  refine ⟨hitems d.items, hitems d.orderedItems, ?_, ?_, ?_⟩
  · simp only [conversionsBelow, presentChildren]
    cases d.children with
    | none => exact converts_pure none
    | some cs => exact (convertChildren_converts cs).map some
  · simp only [conversionsBelow]
    cases d.patterns with
    | none => exact converts_pure none
    | some ps => exact (convertPatterns_converts ps).map some
  · simp only [conversionsBelow]
    cases d.alternatives with
    | none => exact converts_pure []
    | some bs => exact convertBranches_converts bs

end Description

/-! ## A node -/

section Nodes

open Conversion (converts_lift)

variable {o : Options}

/-- **A kind that succeeds has converted what it visits**, in order. -/
theorem Kind.convert_converts (kind : Kind) (s : Settings) {d : Description} {below : Below}
    (hb : below.Converts o d) (f : Fragment) :
    (kind.convert s d.toTraits below f).Converts o (d.visitedBy kind) := by
  cases kind with
  | string | number | boolean | binary | date => exact converts_lift _
  | array =>
    exact (converts_lift _).bind fun f => hb.items.bind fun anywhere =>
      hb.orderedItems.bind_pure fun byPlace => Keywords.insertItems anywhere byPlace f
  | object =>
    have hconvert : (Keywords.applyObject s d.toTraits below f).Converts o _ :=
      (converts_lift _).bind fun f => hb.children.bind fun children =>
        hb.patterns.bind fun patterns => (converts_lift _).bind_pure _
    rw [List.append_nil] at hconvert
    exact hconvert
  | alternatives =>
    rw [Kind.convert, Keywords.applyAlternatives_eq]
    exact (converts_lift _).bind fun _ => hb.branches.bind_pure _

namespace Description

variable {d : Description} {r r' : Registry} {v : Option Json}

/-- **How a node without a handler succeeds.** -/
inductive Success (o : Options) (d : Description) (r : Registry) : Option Json → Registry → Prop where
  | dropped (hkind : Kind.ofName? d.typeName = none) : Success o d r none r
  | referred {kind : Kind} {path : String} (hkind : Kind.ofName? d.typeName = some kind)
    (hpath : o.path? d = some path) (htaken : path ∈ r.paths) :
    Success o d r (some (.reference path)) r
  | written {kind : Kind} {v : Json} {r' : Registry} (hkind : Kind.ofName? d.typeName = some kind)
    (hpath : o.path? d = none) (hbelow : Succession o (d.visitedBy kind) r r') :
    Success o d r (some v) r'
  | registered {kind : Kind} {path : String} {v : Json} {r' : Registry}
    (hkind : Kind.ofName? d.typeName = some kind) (hpath : o.path? d = some path)
    (hfree : path ∉ r.paths) (hbelow : Succession o (d.visitedBy kind) r r') :
    Success o d r (some (.reference path)) (r'.register path v)

theorem success_of_run (ho : o.handlers = []) (h : (d.convert o).run r = (.ok v, r')) :
    Success o d r v r' := by
  rw [convert_eq, convertWith_eq] at h
  cases hkind : Kind.ofName? d.typeName with
  | none =>
    rw [convertNode_of_unknown (Options.resolve_of_unknown ho hkind)] at h
    split at h <;> cases h
    exact .dropped hkind
  | some kind =>
    rw [convertNode_of_kind (Options.resolve_of_kind ho hkind),
      Options.extraction?_eq_path?] at h
    have hconverts := kind.convert_converts o.toSettings (o := o) d.conversionsBelow_converts
      (d.commonFragment d.leadingFragment)
    cases Conversion.ending_of_run h with
    | referred hpath htaken => exact .referred hkind hpath (Registry.contains_iff.1 htaken)
    | written hpath hrun => exact .written hkind hpath (hconverts r _ _ hrun)
    | registered hpath hfree hrun =>
      exact .registered hkind hpath (mt Registry.contains_iff.2 hfree) (hconverts r _ _ hrun)

end Description

end Nodes
end Schemata
