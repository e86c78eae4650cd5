import Schemata.Proofs.Closed
import Schemata.Proofs.Correspondence
/-!
# Simulation — two conversions in step

Two conversions of one description go through it together: they visit the same nodes in the same
order, fail at the same place with the same error, and what they give corresponds.  A `Simulation`
says when two registries agree and which schemas correspond at them.  It is proved of one node, and
`Simulation.convertWith` carries it through the tree.

Whether registries agree may depend on the nodes that are still to come: a node whose path must not
be taken when it is reached is one of them.  So agreement is a relation on registries for a list of
nodes, from which nodes may be left out.
-/
namespace Schemata

open List (Forall₂)

/-- **When two conversions are in step.** -/
structure Simulation where
  /-- Two registries agree, while these nodes are still to come. -/
  Agree : List Description → Registry → Registry → Prop
  /-- What corresponds at two registries. -/
  values : Registry → Registry → Correspondence
  agree_sublist : ∀ {later fewer : List Description} {r s : Registry},
    fewer.Sublist later → Agree later r s → Agree fewer r s
  schema_mono : ∀ {r s r' s' : Registry} {v w : Json},
    r ≤ r' → s ≤ s' → (values r s).Schema v w → (values r' s').Schema v w

namespace Simulation

variable {S : Simulation} {α β α' β' : Type}

/-- **Two runs that end in step**: with results that correspond, or with the same error. -/
inductive Meets (S : Simulation) (later : List Description)
    (Q : Registry → Registry → α → β → Prop) (r s : Registry) :
    Except ConvertError α × Registry → Except ConvertError β × Registry → Prop where
  | ok {a : α} {b : β} {r' s' : Registry} : r ≤ r' → s ≤ s' → S.Agree later r' s' → Q r' s' a b →
      Meets S later Q r s (.ok a, r') (.ok b, s')
  | error {e : ConvertError} {r' s' : Registry} : r ≤ r' → s ≤ s' → S.Agree later r' s' →
      Meets S later Q r s (.error e, r') (.error e, s')

/-- **Two conversions in step**, which visit some of these nodes. -/
def Relates (S : Simulation) (visited : List Description)
    (Q : Registry → Registry → α → β → Prop) (c : Conversion α) (d : Conversion β) : Prop :=
  ∀ later r s, S.Agree (visited ++ later) r s → S.Meets later Q r s (c.run r) (d.run s)

variable {later : List Description} {r s : Registry} {Q : Registry → Registry → α → β → Prop}
  {Q' : Registry → Registry → α' → β' → Prop}

/-! ## Steps -/

theorem Meets.pure {a : α} {b : β} (h : S.Agree later r s) (hq : Q r s a b) :
    S.Meets later Q r s ((Pure.pure a : Conversion α).run r) ((Pure.pure b : Conversion β).run s) :=
  .ok le_rfl le_rfl h hq

theorem Meets.lift {Q : Registry → Registry → α → α → Prop} (h : S.Agree later r s)
    (x : Except ConvertError α) (hq : ∀ a, x = .ok a → Q r s a a) :
    S.Meets later Q r s ((Conversion.lift x).run r) ((Conversion.lift x).run s) := by
  rw [Conversion.run_lift, Conversion.run_lift]
  cases x with
  | ok a => exact .ok le_rfl le_rfl h (hq a rfl)
  | error e => exact .error le_rfl le_rfl h

/-- What needs no registry is the same on both sides, and the rest goes on from where it was. -/
theorem Meets.liftBind {x : Except ConvertError α} {next : α → Conversion α'}
    {next' : α → Conversion β'} (h : S.Agree later r s)
    (hnext : ∀ a, x = .ok a → S.Meets later Q' r s ((next a).run r) ((next' a).run s)) :
    S.Meets later Q' r s ((Conversion.lift x >>= next).run r)
      ((Conversion.lift x >>= next').run s) := by
  cases x with
  | ok a => exact hnext a rfl
  | error e => exact .error le_rfl le_rfl h

/-- Runs in step go on in step.  What corresponded stays so while the second parts run. -/
theorem Meets.bind {middle : List Description} {c : Conversion α} {d : Conversion β}
    {next : α → Conversion α'} {next' : β → Conversion β'}
    (h : S.Meets middle Q r s (c.run r) (d.run s))
    (hmiddle : later.Sublist middle)
    (hnext : ∀ a b r' s', r ≤ r' → s ≤ s' → S.Agree middle r' s' → Q r' s' a b →
      S.Meets later Q' r' s' ((next a).run r') ((next' b).run s')) :
    S.Meets later Q' r s ((c >>= next).run r) ((d >>= next').run s) := by
  rcases hc : c.run r with ⟨e | a, r'⟩ <;> rcases hd : d.run s with ⟨e' | b, s'⟩ <;>
    rw [hc, hd] at h <;> cases h
  · rename_i hr hs hagree
    rw [Conversion.run_bind_of_error hc, Conversion.run_bind_of_error hd]
    exact .error hr hs (S.agree_sublist hmiddle hagree)
  · rename_i hr hs hagree hq
    rw [Conversion.run_bind_of_ok hc, Conversion.run_bind_of_ok hd]
    have hrest := hnext a b r' s' hr hs hagree hq
    rcases hn : (next a).run r' with ⟨e | a', r''⟩ <;>
      rcases hn' : (next' b).run s' with ⟨e' | b', s''⟩ <;> rw [hn, hn'] at hrest <;> cases hrest
    · rename_i hr' hs' hagree'
      exact .error (le_trans hr hr') (le_trans hs hs') hagree'
    · rename_i hr' hs' hagree' hq'
      exact .ok (le_trans hr hr') (le_trans hs hs') hagree' hq'

theorem Meets.map {c : Conversion α} {d : Conversion β} {g : α → α'} {g' : β → β'}
    (h : S.Meets later Q r s (c.run r) (d.run s))
    (hg : ∀ a b r' s', Q r' s' a b → Q' r' s' (g a) (g' b)) :
    S.Meets later Q' r s ((g <$> c).run r) ((g' <$> d).run s) := by
  rw [← bind_pure_comp, ← bind_pure_comp]
  exact h.bind (List.Sublist.refl later) fun a b r' s' _ _ hagree hq => .pure hagree (hg a b r' s' hq)

/-! ## What corresponds -/

variable (S)

/-- Results that correspond: both nodes are dropped, or their schemas correspond. -/
def Result (r s : Registry) : Option Json → Option Json → Prop :=
  Option.Rel (S.values r s).Schema

def Schemas (r s : Registry) : List Json → List Json → Prop := Forall₂ (S.values r s).Schema

def Children (r s : Registry) : List ConvertedChild → List ConvertedChild → Prop :=
  Forall₂ (S.values r s).Child

def ChildrenIfAny (r s : Registry) :
    Option (List ConvertedChild) → Option (List ConvertedChild) → Prop :=
  Option.Rel (S.Children r s)

def Patterns (r s : Registry) : Members Json → Members Json → Prop :=
  Members.Rel fun _ => (S.values r s).Schema

def PatternsIfAny (r s : Registry) : Option (Members Json) → Option (Members Json) → Prop :=
  Option.Rel (S.Patterns r s)

variable {S}

theorem schemas_mono {r' s' : Registry} {vs ws : List Json} (hr : r ≤ r') (hs : s ≤ s')
    (h : S.Schemas r s vs ws) : S.Schemas r' s' vs ws :=
  h.imp fun _ _ => S.schema_mono hr hs

theorem children_mono {r' s' : Registry} {cs ds : List ConvertedChild} (hr : r ≤ r') (hs : s ≤ s')
    (h : S.Children r s cs ds) : S.Children r' s' cs ds :=
  h.imp fun _ _ hc => ⟨hc.key, hc.isRequired, S.schema_mono hr hs hc.schema⟩

theorem childrenIfAny_mono {r' s' : Registry} {cs ds : Option (List ConvertedChild)} (hr : r ≤ r')
    (hs : s ≤ s') (h : S.ChildrenIfAny r s cs ds) : S.ChildrenIfAny r' s' cs ds := by
  cases h with
  | none => exact .none
  | some h => exact .some (children_mono hr hs h)

end Simulation

/-- The conversions below a node are in step, each through the nodes of its part. -/
structure Below.Relates (S : Simulation) (node : Description) (b b' : Below) : Prop where
  items : S.Relates node.itemNodes S.Schemas b.items b'.items
  orderedItems : S.Relates node.orderedItemNodes S.Schemas b.orderedItems b'.orderedItems
  children : S.Relates node.childNodes S.ChildrenIfAny b.children b'.children
  patterns : S.Relates node.patternNodes S.PatternsIfAny b.patterns b'.patterns
  branches : S.Relates node.branchNodes S.Schemas b.branches b'.branches

namespace Simulation

variable {S : Simulation} {settings : Settings} {node : Description} {b b' : Below}

/-! ## Kinds -/

/-- The term under which an alternation puts its branches may hold related schemas. -/
def TermFits (S : Simulation) (f : Fragment) : Prop :=
  ∀ r s vs ws, S.Schemas r s vs ws → (S.values r s).Keyword
    (f.takeTerm.1.getD Keywords.defaultCombinator) (.array vs) (.array ws)

/-- What a kind makes of a fragment on both sides: fragments that correspond, with the bag of the
fragment or what is left of it without its term. -/
structure Kinds (S : Simulation) (f : Fragment) (r s : Registry) (g g' : Fragment) : Prop where
  fragments : (S.values r s).Fragments g g'
  bag : g.bag = f.bag ∨ g.bag = f.takeTerm.2.bag

/-- Steps that write the same plain keywords into fragments that correspond go on with such
fragments. -/
theorem Meets.writesBind {names : List String} {apply : Fragment → Except ConvertError Fragment}
    (hwrites : Writes names apply) (hnames : ∀ name ∈ names, IsPlain name) {later : List Description}
    {r s : Registry} {f g : Fragment} {next next' : Fragment → Conversion Fragment}
    {Q : Registry → Registry → Fragment → Fragment → Prop} (hagree : S.Agree later r s)
    (hfg : (S.values r s).Fragments f g)
    (hnext : ∀ f' g', (S.values r s).Fragments f' g' → f'.bag = f.bag →
      S.Meets later Q r s ((next f').run r) ((next' g').run s)) :
    S.Meets later Q r s ((Conversion.lift (apply f) >>= next).run r)
      ((Conversion.lift (apply g) >>= next').run s) := by
  rcases hwrites.cases with ⟨e, hfails⟩ | ⟨ms, hms, happly⟩
  · rw [hfails, hfails]
    exact .error le_rfl le_rfl hagree
  · rw [happly, happly]
    have hplain := Keywords.allPlain_of_among hnames hms
    exact hnext _ _ (hfg.insertAll (Correspondence.keywords_of_allPlain hplain)) (f.bag_insertAll ms)

theorem applyArray {f : Fragment} (hf : f.Plain) (hb : b.Relates S node b') :
    S.Relates node.belowNodes (S.Kinds f) (Keywords.applyArray settings node.toTraits b f)
      (Keywords.applyArray settings node.toTraits b' f) := by
  intro later r s hagree
  have hvisit : (node.itemNodes ++ (node.orderedItemNodes ++ later)).Sublist
      (node.belowNodes ++ later) := by
    rw [← List.append_assoc]
    exact node.array_sublist.append_right later
  have hordered := List.sublist_append_right node.itemNodes (node.orderedItemNodes ++ later)
  have hlater := List.sublist_append_right node.orderedItemNodes later
  have hvisited := S.agree_sublist hvisit hagree
  refine .liftBind (S.agree_sublist (hlater.trans hordered) hvisited) fun f₁ hf₁ => ?_
  have hgains := (Keywords.writes_applyArrayTraits settings node.toTraits).gains hf₁
  have hkept := Keywords.kept_of_gains hgains (by decide)
  refine (hb.items _ r s hvisited).bind hlater ?_
  intro anywhere anywhere' r₁ s₁ _ _ hagree hanywhere
  refine (hb.orderedItems _ r₁ s₁ hagree).bind (List.Sublist.refl later) ?_
  intro byPlace byPlace' r₂ s₂ hr hs hagree hbyPlace
  have hf₁ : (S.values r₂ s₂).Fragments f₁ f₁ :=
    Correspondence.fragments_of_plain (hkept.plain hf)
  refine .pure hagree ⟨hf₁.insertItems (schemas_mono hr hs hanywhere) hbyPlace, .inl ?_⟩
  rw [Keywords.bag_insertItems, hkept.bag]

theorem applyObject {f : Fragment} (hf : f.Plain) (hb : b.Relates S node b') :
    S.Relates node.belowNodes (S.Kinds f) (Keywords.applyObject settings node.toTraits b f)
      (Keywords.applyObject settings node.toTraits b' f) := by
  intro later r s hagree
  have hvisit : (node.childNodes ++ (node.patternNodes ++ later)).Sublist
      (node.belowNodes ++ later) := by
    rw [← List.append_assoc]
    exact node.object_sublist.append_right later
  have hpatterns := List.sublist_append_right node.childNodes (node.patternNodes ++ later)
  have hlater := List.sublist_append_right node.patternNodes later
  have hvisited := S.agree_sublist hvisit hagree
  refine .liftBind (S.agree_sublist (hlater.trans hpatterns) hvisited) fun f₁ hf₁ => ?_
  have hgains := (Keywords.writes_applyObjectTraits settings node.toTraits).gains hf₁
  have hkept := Keywords.kept_of_gains hgains (by decide)
  refine (hb.children _ r s hvisited).bind hlater ?_
  intro children children' r₁ s₁ _ _ hagree hchildren
  refine (hb.patterns _ r₁ s₁ hagree).bind (List.Sublist.refl later) ?_
  intro patterns patterns' r₂ s₂ hr hs hagree hpatterns
  have hchildren := childrenIfAny_mono hr hs hchildren
  have hf₁ : (S.values r₂ s₂).Fragments f₁ f₁ :=
    Correspondence.fragments_of_plain (hkept.plain hf)
  have hfragments := (hf₁.insertOption (Correspondence.properties hchildren)).insertOption
    (Correspondence.patternProperties hpatterns)
  refine .writesBind (Keywords.writes_applyDependencies node.dependencies) (by decide) hagree
    hfragments fun f₂ g₂ hf₂ hbag => ?_
  rw [Correspondence.requiredKeys_eq hchildren]
  refine .pure hagree ⟨hf₂.insertPlain (by decide) _, .inl ?_⟩
  rw [Fragment.bag_insertOption, hbag, Fragment.bag_insertOption, Fragment.bag_insertOption,
    hkept.bag]

theorem applyAlternatives {f : Fragment} (hf : f.Plain) (hterm : S.TermFits f)
    (hb : b.Relates S node b') :
    S.Relates node.belowNodes (S.Kinds f)
      (Keywords.applyAlternatives settings node.toTraits b.branches f)
      (Keywords.applyAlternatives settings node.toTraits b'.branches f) := by
  intro later r s hagree
  have hvisit : (node.branchNodes ++ later).Sublist (node.belowNodes ++ later) :=
    node.branches_sublist.append_right later
  have hlater := List.sublist_append_right node.branchNodes later
  rw [Keywords.applyAlternatives_eq, Keywords.applyAlternatives_eq]
  have hvisited := S.agree_sublist hvisit hagree
  refine .liftBind (S.agree_sublist hlater hvisited) fun _ _ => ?_
  refine (hb.branches _ r s hvisited).bind (List.Sublist.refl later) ?_
  intro schemas schemas' r₁ s₁ _ _ hagree hschemas
  refine .pure hagree ⟨?_, .inr rfl⟩
  exact (Correspondence.fragments_of_plain hf.takeTerm).insert (hterm r₁ s₁ _ _ hschemas)

/-- Plain keywords that need no registry are the same on both sides. -/
theorem scalar {names : List String} (hnames : ∀ name ∈ names, IsPlain name)
    {later : List Description} {f : Fragment} {r s : Registry} (hagree : S.Agree later r s)
    (hf : f.Plain) (x : Except ConvertError Fragment) (hx : ∀ g, x = .ok g → f.Gains names g) :
    S.Meets later (S.Kinds f) r s ((Conversion.lift x).run r) ((Conversion.lift x).run s) := by
  refine .lift hagree x fun g hg => ?_
  have hkept := Keywords.kept_of_gains (hx g hg) hnames
  exact ⟨Correspondence.fragments_of_plain (hkept.plain hf), .inl hkept.bag⟩

/-- **A kind keeps two conversions in step.** -/
theorem kind (settings : Settings) (kind : Kind) {f : Fragment} (hf : f.Plain)
    (hterm : kind = .alternatives → S.TermFits f) (hb : b.Relates S node b') :
    S.Relates node.belowNodes (S.Kinds f) (kind.convert settings node.toTraits b f)
      (kind.convert settings node.toTraits b' f) := by
  intro later r s hagree
  have hlater : S.Agree later r s :=
    S.agree_sublist (List.sublist_append_right node.belowNodes later) hagree
  cases kind with
  | string =>
    exact scalar (by decide) hlater hf _ fun _ => (Keywords.writes_applyString settings _).gains
  | number => exact scalar (by decide) hlater hf _ fun _ => Keywords.gains_applyNumber
  | boolean =>
    exact scalar (by decide) hlater hf _ fun _ => (Keywords.writes_applyBoolean settings _).gains
  | binary =>
    exact scalar (by decide) hlater hf _ fun _ => (Keywords.writes_applyBinary settings _).gains
  | date =>
    exact scalar (by decide) hlater hf _ fun _ => (Keywords.writes_applyDate settings _).gains
  | array => exact applyArray hf hb later r s hagree
  | object => exact applyObject hf hb later r s hagree
  | alternatives => exact applyAlternatives hf (hterm rfl) hb later r s hagree

/-! ## Descriptions below a node -/

variable {o o' : Options} {other other' : Description → Conversion (Option Json)}

/-- The conversions of a description by two choices of options are in step. -/
def RelatesAt (S : Simulation) (o o' : Options)
    (other other' : Description → Conversion (Option Json)) (d : Description) : Prop :=
  S.Relates d.nodes S.Result (d.convertWith o other) (d.convertWith o' other')

theorem convertItems : ∀ {ds : List Description},
    (∀ d ∈ ds, S.RelatesAt o o' other other' d) →
      S.Relates (ds.flatMap Description.nodes) S.Schemas
        (Description.convertItems o other ds) (Description.convertItems o' other' ds)
  | [], _ => fun _ _ _ hagree => .pure hagree .nil
  | d :: ds, hds => by
    intro later r s hagree
    rw [List.forall_mem_cons] at hds
    rw [List.flatMap_cons, List.append_assoc] at hagree
    rw [Description.convertItems, Description.convertItems]
    refine (hds.1 _ r s hagree).bind (List.sublist_append_right _ later) ?_
    intro v w r₁ s₁ _ _ hagree hv
    refine (convertItems hds.2 _ r₁ s₁ hagree).bind (List.Sublist.refl later) ?_
    intro vs ws r₂ s₂ hr hs hagree hvs
    refine .pure hagree ?_
    cases hv with
    | none => exact hvs
    | some hv => exact .cons (S.schema_mono hr hs hv) hvs

theorem convertChildren : ∀ {cs : List (String × Description)},
    (∀ c ∈ cs, S.RelatesAt o o' other other' c.2) →
      S.Relates ((cs.map Prod.snd).flatMap Description.nodes) S.Children
        (Description.convertChildren o other cs) (Description.convertChildren o' other' cs)
  | [], _ => fun _ _ _ hagree => .pure hagree .nil
  | (key, d) :: cs, hcs => by
    intro later r s hagree
    rw [List.forall_mem_cons] at hcs
    rw [List.map_cons, List.flatMap_cons, List.append_assoc] at hagree
    rw [Description.convertChildren, Description.convertChildren]
    split
    · exact convertChildren hcs.2 later r s
        (S.agree_sublist (List.sublist_append_right _ _) hagree)
    · refine (hcs.1 _ r s hagree).bind (List.sublist_append_right _ later) ?_
      intro v w r₁ s₁ _ _ hagree hv
      refine (convertChildren hcs.2 _ r₁ s₁ hagree).bind (List.Sublist.refl later) ?_
      intro children children' r₂ s₂ hr hs hagree hchildren
      refine .pure hagree ?_
      cases hv with
      | none => exact hchildren
      | some hv => exact .cons ⟨rfl, rfl, S.schema_mono hr hs hv⟩ hchildren

theorem convertPatterns : ∀ {ps : List (PatternRule Description)},
    (∀ p ∈ ps, S.RelatesAt o o' other other' p.rule) →
      S.Relates ((ps.map PatternRule.rule).flatMap Description.nodes) S.Patterns
        (Description.convertPatterns o other ps) (Description.convertPatterns o' other' ps)
  | [], _ => fun _ _ _ hagree => .pure hagree .nil
  | ⟨regex, schema, rule⟩ :: ps, hps => by
    intro later r s hagree
    rw [List.forall_mem_cons] at hps
    rw [List.map_cons, List.flatMap_cons, List.append_assoc] at hagree
    have hlater := List.sublist_append_right ((ps.map PatternRule.rule).flatMap Description.nodes)
      later
    rw [Description.convertPatterns, Description.convertPatterns]
    refine .liftBind (S.agree_sublist (hlater.trans (List.sublist_append_right _ _)) hagree)
      fun key _ => ?_
    refine (hps.1 _ r s hagree).bind hlater ?_
    intro v w r₁ s₁ _ _ hagree hv
    refine (convertPatterns hps.2 _ r₁ s₁ hagree).bind (List.Sublist.refl later) ?_
    intro members members' r₂ s₂ hr hs hagree hmembers
    refine .pure hagree ?_
    cases hv with
    | none => exact hmembers
    | some hv => exact Members.rel_cons (S.schema_mono hr hs hv) hmembers

theorem convertBranches : ∀ {bs : List (Alternative Description)},
    (∀ d, Alternative.schema d ∈ bs → S.RelatesAt o o' other other' d) →
      S.Relates ((bs.filterMap Alternative.schema?).flatMap Description.nodes) S.Schemas
        (Description.convertBranches o other bs) (Description.convertBranches o' other' bs)
  | [], _ => fun _ _ _ hagree => .pure hagree .nil
  | .conditional _ :: bs, _ => fun _ _ _ hagree =>
    .error le_rfl le_rfl (S.agree_sublist (List.sublist_append_right _ _) hagree)
  | .schema d :: bs, hbs => by
    intro later r s hagree
    change S.Agree ((d.nodes ++ _) ++ later) r s at hagree
    rw [List.append_assoc] at hagree
    rw [Description.convertBranches, Description.convertBranches]
    refine (hbs d List.mem_cons_self _ r s hagree).bind (List.sublist_append_right _ later) ?_
    intro v w r₁ s₁ _ _ hagree hv
    refine (convertBranches (fun e he => hbs e (List.mem_cons_of_mem _ he)) _ r₁ s₁ hagree).bind
      (List.Sublist.refl later) ?_
    intro vs ws r₂ s₂ hr hs hagree hvs
    refine .pure hagree ?_
    cases hv with
    | none => exact hvs
    | some hv => exact .cons (S.schema_mono hr hs hv) hvs

theorem conversionsBelow {d : Description}
    (hd : ∀ e ∈ d.directlyBelow, S.RelatesAt o o' other other' e) :
    (d.conversionsBelow o other).Relates S d (d.conversionsBelow o' other') := by
  simp only [Description.mem_directlyBelow] at hd
  constructor
  · unfold Description.itemNodes Description.conversionsBelow
    cases hi : d.items with
    | none => exact fun _ _ _ hagree => .pure hagree .nil
    | some ds => exact convertItems fun e hmem => hd e (.inl ⟨ds, hi, hmem⟩)
  · unfold Description.orderedItemNodes Description.conversionsBelow
    cases hi : d.orderedItems with
    | none => exact fun _ _ _ hagree => .pure hagree .nil
    | some ds => exact convertItems fun e hmem => hd e (.inr (.inl ⟨ds, hi, hmem⟩))
  · unfold Description.childNodes Description.conversionsBelow
    cases hi : d.children with
    | none => exact fun _ _ _ hagree => .pure hagree .none
    | some cs =>
      have hcs : S.Relates ((cs.map Prod.snd).flatMap Description.nodes) S.Children
          (Description.convertChildren o other cs) (Description.convertChildren o' other' cs) :=
        convertChildren fun c hmem => hd c.2 (.inr (.inr (.inl ⟨cs, c.1, hi, hmem⟩)))
      exact fun later r s hagree => (hcs later r s hagree).map fun _ _ _ _ h => .some h
  · unfold Description.patternNodes Description.conversionsBelow
    cases hi : d.patterns with
    | none => exact fun _ _ _ hagree => .pure hagree .none
    | some ps =>
      have hps : S.Relates ((ps.map PatternRule.rule).flatMap Description.nodes) S.Patterns
          (Description.convertPatterns o other ps) (Description.convertPatterns o' other' ps) :=
        convertPatterns fun p hmem => hd p.rule (.inr (.inr (.inr (.inl ⟨ps, p, hi, hmem, rfl⟩))))
      exact fun later r s hagree => (hps later r s hagree).map fun _ _ _ _ h => .some h
  · unfold Description.branchNodes Description.conversionsBelow
    cases hi : d.alternatives with
    | none => exact fun _ _ _ hagree => .pure hagree .nil
    | some bs => exact convertBranches fun e hmem => hd e (.inr (.inr (.inr (.inr ⟨bs, hi, hmem⟩))))

/-- Two nodes that are not registered are in step when what their fragments are written as
corresponds. -/
theorem Meets.inline {later : List Description} {r s : Registry} {f : Fragment}
    {c d : Conversion Fragment} (h : S.Meets later (S.Kinds f) r s (c.run r) (d.run s))
    (hwritten : ∀ r' s' g g', S.Kinds f r' s' g g' → (S.values r' s').Schema g.toJson g'.toJson) :
    S.Meets later S.Result r s ((Conversion.inline (some <$> c)).run r)
      ((Conversion.inline (some <$> d)).run s) := by
  rw [Conversion.inline_map_some, Conversion.inline_map_some]
  exact h.map fun g g' r' s' hg => .some (hwritten r' s' g g' hg)

theorem unknown {d : Description} (hd : o.resolve d.typeName = none)
    (hd' : o'.resolve d.typeName = none)
    (hignore : o.ignoreUnknownTypes = o'.ignoreUnknownTypes) (b b' : Below) :
    S.Relates d.nodes S.Result (Description.convertNode o other d b)
      (Description.convertNode o' other' d b') := by
  intro later r s hagree
  have hlater : S.Agree later r s := S.agree_sublist (List.sublist_append_right _ _) hagree
  rw [Description.convertNode_of_unknown hd, Description.convertNode_of_unknown hd', hignore]
  split
  · exact .pure hlater .none
  · exact .error le_rfl le_rfl hlater

/-- **Two conversions of a tree are in step** once those of a node are whose conversions below
are. -/
theorem convertWith
    (node : ∀ (d : Description) (b b' : Below), b.Relates S d b' →
      S.Relates d.nodes S.Result (Description.convertNode o other d b)
        (Description.convertNode o' other' d b'))
    (d : Description) : S.RelatesAt o o' other other' d := by
  induction d using Description.induction with
  | node d ih =>
    unfold RelatesAt
    rw [Description.convertWith_eq, Description.convertWith_eq]
    exact node d _ _ (conversionsBelow ih)

end Simulation
end Schemata
