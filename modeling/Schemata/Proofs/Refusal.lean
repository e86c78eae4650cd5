import Mathlib.Logic.Relation
import Schemata.Description.Build
import Schemata.Proofs.Acceptance
import Schemata.Proofs.Node
import Schemata.Proofs.Tree
/-!
# Refusal — when a conversion fails

A conversion looks at the root, and at the descriptions below a node that its kind converts: the
items of an array, the children of an object that are not forbidden and the values of its key
patterns, the branches of an alternation.  What stands in a list that the kind does not use is not
looked at.  A node is refused for its type, for a rule, for its other traits or for its lists; the
settings tolerate the first two only in so far as the type or the rule is unknown.

Without handlers and extraction, a conversion fails exactly when it looks at a node that is refused
(`Description.convert_fails_iff`).
-/
namespace Schemata

/-! ## What a node is refused for -/

namespace Description

/-- **What a node is refused for.** -/
inductive Refused (s : Settings) (d : Description) : Prop where
  | unknownType (hkind : Kind.ofName? d.typeName = none) (hs : s.ignoreUnknownTypes = false)
  | unknownRule {kind : Kind} {rule : Rule} (hkind : Kind.ofName? d.typeName = some kind)
      (hmem : rule ∈ d.rules) (hname : rule.name ∉ kind.ruleNames)
      (hs : s.ignoreUnknownRules = false)
  | argument {kind : Kind} {rule : Rule} (hkind : Kind.ofName? d.typeName = some kind)
      (hmem : rule ∈ d.rules) (h : kind.RefusesArgument rule)
  | traits {kind : Kind} (hkind : Kind.ofName? d.typeName = some kind)
      (h : kind.RefusesTraits d.toTraits)
  | lists {kind : Kind} (hkind : Kind.ofName? d.typeName = some kind) (h : kind.RefusesLists d)

theorem refused_of_unknown {s : Settings} {d : Description}
    (hkind : Kind.ofName? d.typeName = none) :
    d.Refused s ↔ s.ignoreUnknownTypes = false := by
  refine ⟨fun h => ?_, .unknownType hkind⟩
  cases h with
  | unknownType _ hs => exact hs
  | unknownRule hk | argument hk | traits hk | lists hk =>
    rw [hkind] at hk
    cases hk

theorem not_refused_of_kind {s : Settings} {d : Description} {kind : Kind}
    (hkind : Kind.ofName? d.typeName = some kind) : ¬d.Refused s ↔ kind.AcceptsNode s d := by
  constructor
  · intro h
    refine ⟨mt (.traits hkind) h, fun rule hmem => ⟨mt (.argument hkind hmem) h, ?_⟩,
      mt (.lists hkind) h⟩
    cases hs : s.ignoreUnknownRules with
    | true => exact .inr rfl
    | false => exact .inl (Decidable.of_not_not fun hname => h (.unknownRule hkind hmem hname hs))
  · intro h hrefused
    cases hrefused with
    | unknownType hk =>
      rw [hkind] at hk
      cases hk
    | unknownRule hk hmem hname hs =>
      obtain rfl := Option.some.inj (hkind.symm.trans hk)
      exact (h.rules _ hmem).name.elim hname fun ht => Bool.false_ne_true (hs.symm.trans ht)
    | argument hk hmem harg =>
      obtain rfl := Option.some.inj (hkind.symm.trans hk)
      exact (h.rules _ hmem).argument harg
    | traits hk ht =>
      obtain rfl := Option.some.inj (hkind.symm.trans hk)
      exact h.traits ht
    | lists hk hl =>
      obtain rfl := Option.some.inj (hkind.symm.trans hk)
      exact h.lists hl

/-! ## What a conversion looks at -/

/-- The children that are not forbidden. -/
def presentChildren (d : Description) : List Description :=
  ((d.children.getD []).map Prod.snd).filter fun e => e.presence ≠ .forbidden

/-- The descriptions directly below a node that a kind converts. -/
def visitedBy (d : Description) : Kind → List Description
  | .array => d.items.getD [] ++ d.orderedItems.getD []
  | .object => d.presentChildren ++ (d.patterns.getD []).map PatternRule.rule
  | .alternatives => (d.alternatives.getD []).filterMap Alternative.schema?
  | _ => []

theorem visitedBy_sublist (d : Description) (kind : Kind) :
    (d.visitedBy kind).Sublist d.directlyBelow := by
  have hchildren : d.presentChildren.Sublist ((d.children.getD []).map Prod.snd) :=
    List.filter_sublist
  unfold visitedBy directlyBelow
  cases kind with
  | string | number | boolean | binary | date => exact List.nil_sublist _
  | array =>
    rw [List.append_assoc, List.append_assoc]
    exact List.sublist_append_left _ _
  | object =>
    refine List.Sublist.trans ?_ (List.sublist_append_left _ _)
    rw [List.append_assoc (_ ++ _)]
    exact (hchildren.append_right _).trans (List.sublist_append_right _ _)
  | alternatives => exact List.sublist_append_right _ _

/-- A node is of a kind that converts a description below it. -/
def Visits (d e : Description) : Prop :=
  ∃ kind, Kind.ofName? d.typeName = some kind ∧ e ∈ d.visitedBy kind

/-- **The nodes that a conversion looks at.** -/
def Reaches : Description → Description → Prop := Relation.ReflTransGen Visits

theorem not_reaches_refused_of_unknown {s : Settings} {d : Description}
    (hkind : Kind.ofName? d.typeName = none) :
    (∀ n, d.Reaches n → ¬n.Refused s) ↔ s.ignoreUnknownTypes = true := by
  rw [← Bool.not_eq_false, ← refused_of_unknown hkind]
  refine ⟨fun h => h d .refl, fun h n hn => ?_⟩
  rcases hn.cases_head with rfl | ⟨e, ⟨kind, hk, -⟩, -⟩
  · exact h
  · rw [hkind] at hk
    cases hk

theorem not_reaches_refused_of_kind {s : Settings} {d : Description} {kind : Kind}
    (hkind : Kind.ofName? d.typeName = some kind) :
    (∀ n, d.Reaches n → ¬n.Refused s) ↔
      kind.AcceptsNode s d ∧ ∀ e ∈ d.visitedBy kind, ∀ n, e.Reaches n → ¬n.Refused s := by
  rw [← not_refused_of_kind hkind]
  constructor
  · exact fun h => ⟨h d .refl, fun e he n hn => h n (hn.head ⟨kind, hkind, he⟩)⟩
  · rintro ⟨hd, hbelow⟩ n hn
    rcases hn.cases_head with rfl | ⟨e, ⟨kind', hk, he⟩, hn⟩
    · exact hd
    · obtain rfl := Option.some.inj (hkind.symm.trans hk)
      exact hbelow e he n hn

end Description

/-! ## Conversions and what decides them -/

namespace Conversion

variable {α β : Type} {p q : Prop}

/-- From every registry, a conversion succeeds exactly if something is the case. -/
def Decides (c : Conversion α) (p : Prop) : Prop := ∀ r, Accepted (c.run r).1 ↔ p

theorem decides_lift {x : Except ConvertError α} (h : Accepted x ↔ p) : (lift x).Decides p := by
  intro r
  rw [run_lift]
  exact h

theorem decides_pure (a : α) : (pure a : Conversion α).Decides True :=
  decides_lift (iff_true_intro (accepted_ok a))

theorem decides_fail (e : ConvertError) : (fail e : Conversion α).Decides False :=
  decides_lift (iff_false_intro (not_accepted_error e))

theorem Decides.of_iff {c : Conversion α} (h : c.Decides p) (hpq : p ↔ q) : c.Decides q :=
  fun r => (h r).trans hpq

theorem Decides.bind {c : Conversion α} {next : α → Conversion β} (hc : c.Decides p)
    (hnext : ∀ a, (next a).Decides q) : (c >>= next).Decides (p ∧ q) := by
  intro r
  have hr := hc r
  rcases hrun : c.run r with ⟨e | a, r'⟩
  · rw [hrun] at hr
    rw [run_bind_of_error hrun]
    exact iff_of_false (not_accepted_error e) fun h => not_accepted_error e (hr.2 h.1)
  · rw [hrun] at hr
    rw [run_bind_of_ok hrun, hnext a r']
    exact (and_iff_right (hr.1 (accepted_ok a))).symm

theorem Decides.map (f : α → β) {c : Conversion α} (hc : c.Decides p) : (f <$> c).Decides p := by
  rw [← bind_pure_comp]
  exact (hc.bind fun a => decides_pure (f a)).of_iff (and_iff_left trivial)

theorem Decides.bind_pure (f : α → β) {c : Conversion α} (hc : c.Decides p) :
    (c >>= fun a => pure (f a)).Decides p := by
  rw [bind_pure_comp]
  exact hc.map f

end Conversion

/-! ## Descriptions below a node -/

/-- What decides the conversions below a node, when the conversions of the descriptions there are
decided by a property of theirs. -/
structure Below.Decides (b : Below) (d : Description) (P : Description → Prop) : Prop where
  items : b.items.Decides (∀ e ∈ d.items.getD [], P e)
  orderedItems : b.orderedItems.Decides (∀ e ∈ d.orderedItems.getD [], P e)
  children : b.children.Decides (∀ e ∈ d.presentChildren, P e)
  patterns : b.patterns.Decides (∀ p ∈ d.patterns.getD [], ¬p.LacksKey ∧ P p.rule)
  branches : b.branches.Decides (∀ b ∈ d.alternatives.getD [], ∃ e, b = .schema e ∧ P e)

namespace Description

open Conversion (Decides decides_lift decides_pure decides_fail)

variable {o : Options} {other : Description → Conversion (Option Json)} {P : Description → Prop}

theorem convertItems_decides : ∀ {ds : List Description},
    (∀ d ∈ ds, (d.convertWith o other).Decides (P d)) →
      (convertItems o other ds).Decides (∀ d ∈ ds, P d)
  | [], _ => (decides_pure []).of_iff (by simp)
  | d :: ds, h => by
    rw [List.forall_mem_cons] at h
    rw [convertItems, List.forall_mem_cons]
    exact h.1.bind fun schema => (convertItems_decides h.2).bind_pure _

theorem convertChildren_decides : ∀ {cs : List (String × Description)},
    (∀ c ∈ cs, (c.2.convertWith o other).Decides (P c.2)) →
      (convertChildren o other cs).Decides (∀ c ∈ cs, c.2.presence ≠ .forbidden → P c.2)
  | [], _ => (decides_pure []).of_iff (by simp)
  | (key, d) :: cs, h => by
    rw [List.forall_mem_cons] at h
    rw [convertChildren, List.forall_mem_cons]
    by_cases hpresence : d.presence = .forbidden
    · rw [if_pos hpresence]
      exact (convertChildren_decides h.2).of_iff
        (and_iff_right fun hne => absurd hpresence hne).symm
    · rw [if_neg hpresence]
      have hbind := h.1.bind fun schema => (convertChildren_decides h.2).bind_pure fun children =>
        (schema.map fun s => ConvertedChild.mk key (d.presence = .required) s).toList ++ children
      exact hbind.of_iff (and_congr_left' ⟨fun hd _ => hd, fun hd => hd hpresence⟩)

theorem convertPatterns_decides : ∀ {ps : List (PatternRule Description)},
    (∀ p ∈ ps, (p.rule.convertWith o other).Decides (P p.rule)) →
      (convertPatterns o other ps).Decides (∀ p ∈ ps, ¬p.LacksKey ∧ P p.rule)
  | [], _ => (decides_pure []).of_iff (by simp)
  | p :: ps, h => by
    rw [List.forall_mem_cons] at h
    rw [convertPatterns, List.forall_mem_cons, and_assoc]
    refine (decides_lift (Keywords.accepted_keyPattern p)).bind fun key => ?_
    exact h.1.bind fun value => (convertPatterns_decides h.2).bind_pure _

theorem convertBranches_decides : ∀ {bs : List (Alternative Description)},
    (∀ d, Alternative.schema d ∈ bs → (d.convertWith o other).Decides (P d)) →
      (convertBranches o other bs).Decides
        (∀ b ∈ bs, ∃ d, b = .schema d ∧ P d)
  | [], _ => (decides_pure []).of_iff (by simp)
  | .conditional c :: bs, _ => by
    rw [convertBranches, List.forall_mem_cons]
    exact (decides_fail _).of_iff (by simp)
  | .schema d :: bs, h => by
    rw [convertBranches, List.forall_mem_cons]
    have hd : (d.convertWith o other).Decides (∃ e, Alternative.schema d = .schema e ∧ P e) :=
      (h d List.mem_cons_self).of_iff (by simp)
    refine hd.bind fun schema => ?_
    exact (convertBranches_decides fun e he => h e (List.mem_cons_of_mem _ he)).bind_pure _

theorem conversionsBelow_decides {d : Description}
    (h : ∀ e ∈ d.directlyBelow, (e.convertWith o other).Decides (P e)) :
    (d.conversionsBelow o other).Decides d P := by
  simp only [mem_directlyBelow] at h
  constructor
  · simp only [conversionsBelow]
    cases hi : d.items with
    | none => exact (decides_pure []).of_iff (by simp)
    | some ds => exact convertItems_decides fun e he => h e (.inl ⟨ds, hi, he⟩)
  · simp only [conversionsBelow]
    cases hi : d.orderedItems with
    | none => exact (decides_pure []).of_iff (by simp)
    | some ds => exact convertItems_decides fun e he => h e (.inr (.inl ⟨ds, hi, he⟩))
  · simp only [conversionsBelow, presentChildren]
    cases hc : d.children with
    | none => exact (decides_pure none).of_iff (by simp)
    | some cs =>
      have hcs : (convertChildren o other cs).Decides _ := convertChildren_decides fun c hmem =>
        h c.2 (.inr (.inr (.inl ⟨cs, c.1, hc, hmem⟩)))
      refine (hcs.map some).of_iff ?_
      simp only [Option.getD_some, List.mem_filter, List.mem_map, decide_eq_true_eq]
      exact ⟨fun hall e ⟨⟨c, hmem, he⟩, hpresence⟩ => he ▸ hall c hmem (he ▸ hpresence),
        fun hall c hmem hpresence => hall c.2 ⟨⟨c, hmem, rfl⟩, hpresence⟩⟩
  · simp only [conversionsBelow]
    cases hp : d.patterns with
    | none => exact (decides_pure none).of_iff (by simp)
    | some ps =>
      exact (convertPatterns_decides fun p hmem =>
        h p.rule (.inr (.inr (.inr (.inl ⟨ps, p, hp, hmem, rfl⟩))))).map some
  · simp only [conversionsBelow]
    cases hb : d.alternatives with
    | none => exact (decides_pure []).of_iff (by simp)
    | some bs =>
      exact convertBranches_decides fun e he => h e (.inr (.inr (.inr (.inr ⟨bs, hb, he⟩))))

end Description

theorem forall_alternatives_iff {P : Description → Prop} {bs : List (Alternative Description)} :
    (∀ b ∈ bs, ∃ e, b = .schema e ∧ P e) ↔
      (¬∃ c, Alternative.conditional c ∈ bs) ∧ ∀ e ∈ bs.filterMap Alternative.schema?, P e := by
  constructor
  · refine fun h => ⟨fun ⟨c, hc⟩ => ?_, fun e he => ?_⟩
    · obtain ⟨e, he, -⟩ := h _ hc
      cases he
    · obtain ⟨b, hb, hschema⟩ := List.mem_filterMap.1 he
      obtain ⟨e', rfl, he'⟩ := h b hb
      cases hschema
      exact he'
  · rintro ⟨hconditional, hschemas⟩ b hb
    cases b with
    | conditional c => exact absurd ⟨c, hb⟩ hconditional
    | schema e => exact ⟨e, rfl, hschemas e (List.mem_filterMap.2 ⟨_, hb, rfl⟩)⟩

/-! ## Nodes -/

section Nodes

open Conversion (decides_lift decides_pure decides_fail)

/-- **A kind converts a node** exactly when nothing about the node is refused and the descriptions
that it converts have what decides about them. -/
theorem Kind.convert_decides (kind : Kind) (s : Settings) (d : Description) {below : Below}
    {P : Description → Prop} (hb : below.Decides d P) (f : Fragment) :
    (kind.convert s d.toTraits below f).Decides
      (kind.AcceptsNode s d ∧ ∀ e ∈ d.visitedBy kind, P e) := by
  have hscalar : ∀ {p : Prop}, p ↔ (p ∧ ¬False) ∧ ∀ e ∈ ([] : List Description), P e := by simp
  rw [acceptsNode_iff]
  cases kind with
  | string => exact (decides_lift (Keywords.accepted_applyString s _ f)).of_iff hscalar
  | number => exact (decides_lift (Keywords.accepted_applyNumber s _ f)).of_iff hscalar
  | boolean => exact (decides_lift (Keywords.accepted_applyBoolean s _ f)).of_iff hscalar
  | binary => exact (decides_lift (Keywords.accepted_applyBinary s _ f)).of_iff hscalar
  | date => exact (decides_lift (Keywords.accepted_applyDate s _ f)).of_iff hscalar
  | array =>
    have hconvert := (decides_lift (Keywords.accepted_applyArrayTraits s d.toTraits f)).bind
      fun f => hb.items.bind fun anywhere =>
        hb.orderedItems.bind_pure fun byPlace => Keywords.insertItems anywhere byPlace f
    refine hconvert.of_iff ?_
    rw [Description.visitedBy, List.forall_mem_append]
    exact and_congr_left' (and_iff_left not_false).symm
  | object =>
    have hconvert : (Keywords.applyObject s d.toTraits below f).Decides _ :=
      (decides_lift (Keywords.accepted_applyObjectTraits s d.toTraits f)).bind fun f =>
        hb.children.bind fun children => hb.patterns.bind fun patterns =>
          (decides_lift (Keywords.accepted_applyDependencies d.toTraits _)).bind_pure _
    refine hconvert.of_iff ?_
    -- Each key is read with its value and the dependencies last; `AcceptsNode` sorts them.
    rw [Description.visitedBy, List.forall_mem_append, List.forall_mem_map]
    exact ⟨fun ⟨hr, hc, hp, hd⟩ =>
        ⟨⟨⟨hd, hr⟩, fun ⟨p, hmem, hl⟩ => (hp p hmem).1 hl⟩, hc, fun p hmem => (hp p hmem).2⟩,
      fun ⟨⟨⟨hd, hr⟩, hl⟩, hc, hp⟩ =>
        ⟨hr, hc, fun p hmem => ⟨fun h => hl ⟨p, hmem, h⟩, hp p hmem⟩, hd⟩⟩
  | alternatives =>
    have hrules := Keywords.accepted_rules (fun _ => Keywords.takesRules_alternatives) s d.rules ()
    rw [← Keywords.forM_eq_foldlM] at hrules
    have hconvert := (decides_lift hrules).bind fun _ =>
      hb.branches.bind_pure fun schemas =>
        f.takeTerm.2.insert (f.takeTerm.1.getD Keywords.defaultCombinator) (.array schemas)
    rw [Kind.convert, Keywords.applyAlternatives_eq]
    refine hconvert.of_iff ?_
    rw [forall_alternatives_iff]
    exact ⟨fun ⟨hr, hl, hs⟩ => ⟨⟨⟨not_false, hr⟩, hl⟩, hs⟩,
      fun ⟨⟨⟨_, hr⟩, hl⟩, hs⟩ => ⟨hr, hl, hs⟩⟩

namespace Description

variable {o : Options} {other : Description → Conversion (Option Json)}

/-- Extraction must be off: a node whose path is taken is not looked into, whatever stands there. -/
theorem convertWith_decides (ho : o.handlers = []) (hextract : o.extract = false)
    (d : Description) :
    (d.convertWith o other).Decides (∀ n, d.Reaches n → ¬n.Refused o.toSettings) := by
  induction d using Description.induction with
  | node d ih =>
    rw [convertWith_eq]
    cases hk : Kind.ofName? d.typeName with
    | none =>
      rw [convertNode_of_unknown (Options.resolve_of_unknown ho hk),
        not_reaches_refused_of_unknown hk]
      cases o.ignoreUnknownTypes with
      | true => exact (decides_pure none).of_iff (iff_true_intro rfl).symm
      | false => exact (decides_fail _).of_iff (iff_false_intro Bool.false_ne_true).symm
    | some kind =>
      rw [convertNode_of_kind (Options.resolve_of_kind ho hk),
        Settings.extraction?_of_off hextract, Conversion.placed, Conversion.inline_map_some,
        not_reaches_refused_of_kind hk]
      exact (kind.convert_decides o.toSettings d (conversionsBelow_decides ih) _).map _

/-- **A conversion fails exactly when it looks at a node that is refused**, without handlers and
extraction and from whatever registry. -/
theorem convert_fails_iff (ho : o.handlers = []) (hextract : o.extract = false) (d : Description)
    (r : Registry) :
    (∃ e, ((d.convert o).run r).1 = .error e) ↔ ∃ n, d.Reaches n ∧ n.Refused o.toSettings := by
  have hdecides : Accepted ((d.convert o).run r).1 ↔ _ := convertWith_decides ho hextract d r
  rw [← not_accepted_iff, hdecides]
  simp only [Classical.not_forall, Classical.not_not, exists_prop]

/-- The string below is refused, the forbidden child before it is not looked at. -/
theorem convert_fails_iff_nested :
    let forbidden := (ofType "symbol").withFlags { presence := some .forbidden }
    let item := (ofType "string").withFlags { trim := true }
    let node := ((ofType "object").withChild "a" forbidden).withChild "b"
      ((ofType "array").withItem item)
    node.Reaches item ∧ item.Refused {} ∧ ∃ e, ((node.convert {}).run {}).1 = .error e := by
  intro forbidden item node
  have hreaches : node.Reaches item :=
    .head ⟨.object, rfl, List.mem_cons_self⟩ (.single ⟨.array, rfl, List.mem_cons_self⟩)
  have htraits : Kind.string.RefusesTraits item.toTraits := .inr (.inl rfl)
  have hrefused : item.Refused {} := .traits rfl htraits
  exact ⟨hreaches, hrefused, (convert_fails_iff rfl rfl node {}).2 ⟨item, hreaches, hrefused⟩⟩

/-- A description in whichever list below a node whose type is known, forbidden children apart. -/
def Holds (d e : Description) : Prop :=
  (Kind.ofName? d.typeName).isSome ∧ ∃ kind, e ∈ d.visitedBy kind

/-- **What stands in a list that the kind does not use is not looked at**, and refuses nothing. -/
theorem convert_ok_of_unused_list :
    let child := ofType "symbol"
    let node := (ofType "string").withChild "a" child
    ((node.convert {}).run {}).1 = .ok (some (.object [("type", .string "string")])) ∧
      ¬((∃ e, ((node.convert {}).run {}).1 = .error e) ↔
        ∃ n, Relation.ReflTransGen Holds node n ∧ n.Refused {}) := by
  intro child node
  have hok : ((node.convert {}).run {}).1 = .ok (some (.object [("type", .string "string")])) := rfl
  have hholds : Holds node child := ⟨rfl, .object, List.mem_cons_self⟩
  refine ⟨hok, fun h => ?_⟩
  obtain ⟨e, he⟩ := h.2 ⟨child, .single hholds, .unknownType rfl rfl⟩
  rw [hok] at he
  cases he

end Description

end Nodes
end Schemata
