import Schemata.Proofs.Growth
import Schemata.Proofs.Node
import Schemata.Proofs.Tree
/-!
# Closed — what every conversion has because its parts have it

A conversion of a description sequences the conversions of the descriptions below it.  So a property
that sequencing keeps, and that holds of whatever leaves the registry alone, holds of the kinds, of
handlers and of whole trees once it is known of one step: the registration of an extracted node
(`Closed.convertWith`).  Such a property is proved of that one step and never by another induction.
A handler may also go on after a conversion that failed; what it keeps then is `Lasting`.

The first of them is growth: every conversion, whether it succeeds or fails, only adds to the
registry (`Description.convert_extends`).
-/
namespace Schemata

namespace Conversion

/-- **A property that sequencing keeps**, of conversions that leave the registry alone to begin
with. -/
structure Closed (P : (α : Type) → Conversion α → Prop) : Prop where
  lift : ∀ {α : Type} (x : Except ConvertError α), P α (Conversion.lift x)
  bind : ∀ {α β : Type} {c : Conversion α} {next : α → Conversion β},
    P α c → (∀ a, P β (next a)) → P β (c >>= next)

/-- **A property that an attempt keeps, too**, so that it survives a handler that goes on after a
failure. -/
structure Lasting (P : (α : Type) → Conversion α → Prop) : Prop extends Closed P where
  attempt : ∀ {α : Type} {c : Conversion α}, P α c → P (Except ConvertError α) c.attempt

end Conversion

/-- The conversions below a node all have a property. -/
structure Below.All (P : (α : Type) → Conversion α → Prop) (b : Below) : Prop where
  items : P _ b.items
  orderedItems : P _ b.orderedItems
  children : P _ b.children
  patterns : P _ b.patterns
  branches : P _ b.branches

namespace Conversion
namespace Closed

variable {P : (α : Type) → Conversion α → Prop} {α β : Type}

theorem pure (h : Closed P) (a : α) : P α (Pure.pure a) := h.lift (.ok a)

theorem fail (h : Closed P) (e : ConvertError) : P α (Conversion.fail e) := h.lift (.error e)

theorem map (h : Closed P) (f : α → β) {c : Conversion α} (hc : P α c) : P β (f <$> c) := by
  rw [← bind_pure_comp]
  exact h.bind hc fun a => h.pure (f a)

/-! ## Kinds -/

theorem applyArray (h : Closed P) (settings : Settings) (t : Traits) {below : Below}
    (hb : below.All P) (f : Fragment) : P _ (Keywords.applyArray settings t below f) := by
  refine h.bind (h.lift _) fun f => ?_
  refine h.bind hb.items fun anywhere => ?_
  exact h.bind hb.orderedItems fun byPlace => h.pure _

theorem applyObject (h : Closed P) (settings : Settings) (t : Traits) {below : Below}
    (hb : below.All P) (f : Fragment) : P _ (Keywords.applyObject settings t below f) := by
  refine h.bind (h.lift _) fun f => ?_
  refine h.bind hb.children fun children => ?_
  refine h.bind hb.patterns fun patterns => ?_
  exact h.bind (h.lift _) fun f => h.pure _

theorem applyAlternatives (h : Closed P) (settings : Settings) (t : Traits)
    {branches : Conversion (List Json)} (hb : P _ branches) (f : Fragment) :
    P _ (Keywords.applyAlternatives settings t branches f) := by
  refine h.bind (h.lift _) fun _ => ?_
  exact h.bind hb fun schemas => h.pure _

theorem kind (h : Closed P) (kind : Kind) (settings : Settings) (t : Traits) {below : Below}
    (hb : below.All P) (f : Fragment) : P _ (kind.convert settings t below f) := by
  cases kind with
  | string | number | boolean | binary | date => exact h.lift _
  | array => exact h.applyArray settings t hb f
  | object => exact h.applyObject settings t hb f
  | alternatives => exact h.applyAlternatives settings t hb.branches f

/-! ## Descriptions below a node -/

variable {o : Options} {other : Description → Conversion (Option Json)}

theorem convertItems (h : Closed P) : ∀ {ds : List Description},
    (∀ d ∈ ds, P _ (d.convertWith o other)) → P _ (Description.convertItems o other ds)
  | [], _ => h.pure []
  | d :: ds, hds => by
    rw [List.forall_mem_cons] at hds
    rw [Description.convertItems]
    refine h.bind hds.1 fun schema => ?_
    exact h.bind (convertItems h hds.2) fun schemas => h.pure _

theorem convertChildren (h : Closed P) : ∀ {cs : List (String × Description)},
    (∀ c ∈ cs, P _ (c.2.convertWith o other)) → P _ (Description.convertChildren o other cs)
  | [], _ => h.pure []
  | (key, d) :: cs, hcs => by
    rw [List.forall_mem_cons] at hcs
    rw [Description.convertChildren]
    split
    · exact convertChildren h hcs.2
    · refine h.bind hcs.1 fun schema => ?_
      exact h.bind (convertChildren h hcs.2) fun children => h.pure _

theorem convertPatterns (h : Closed P) : ∀ {ps : List (PatternRule Description)},
    (∀ p ∈ ps, P _ (p.rule.convertWith o other)) → P _ (Description.convertPatterns o other ps)
  | [], _ => h.pure []
  | ⟨regex, schema, rule⟩ :: ps, hps => by
    rw [List.forall_mem_cons] at hps
    rw [Description.convertPatterns]
    refine h.bind (h.lift _) fun key => ?_
    refine h.bind hps.1 fun value => ?_
    exact h.bind (convertPatterns h hps.2) fun members => h.pure _

theorem convertBranches (h : Closed P) : ∀ {bs : List (Alternative Description)},
    (∀ d, Alternative.schema d ∈ bs → P _ (d.convertWith o other)) →
      P _ (Description.convertBranches o other bs)
  | [], _ => h.pure []
  | .conditional _ :: bs, _ => h.fail _
  | .schema d :: bs, hbs => by
    rw [Description.convertBranches]
    refine h.bind (hbs d List.mem_cons_self) fun schema => ?_
    refine h.bind (convertBranches h fun e he => hbs e (List.mem_cons_of_mem _ he)) fun schemas => ?_
    exact h.pure _

theorem conversionsBelow (h : Closed P) {node : Description}
    (hd : ∀ d ∈ node.directlyBelow, P _ (d.convertWith o other)) :
    (node.conversionsBelow o other).All P := by
  simp only [Description.mem_directlyBelow] at hd
  constructor
  · simp only [Description.conversionsBelow]
    cases hi : node.items with
    | none => exact h.pure []
    | some ds =>
      exact h.convertItems fun d hmem => hd d (.inl ⟨ds, hi, hmem⟩)
  · simp only [Description.conversionsBelow]
    cases hi : node.orderedItems with
    | none => exact h.pure []
    | some ds =>
      exact h.convertItems fun d hmem => hd d (.inr (.inl ⟨ds, hi, hmem⟩))
  · simp only [Description.conversionsBelow]
    cases hi : node.children with
    | none => exact h.pure none
    | some cs =>
      exact h.map some
        (h.convertChildren fun c hmem => hd c.2 (.inr (.inr (.inl ⟨cs, c.1, hi, hmem⟩))))
  · simp only [Description.conversionsBelow]
    cases hi : node.patterns with
    | none => exact h.pure none
    | some ps =>
      exact h.map some (h.convertPatterns fun p hmem =>
        hd p.rule (.inr (.inr (.inr (.inl ⟨ps, p, hi, hmem, rfl⟩)))))
  · simp only [Description.conversionsBelow]
    cases hi : node.alternatives with
    | none => exact h.pure []
    | some bs =>
      exact h.convertBranches fun d hmem => hd d (.inr (.inr (.inr (.inr ⟨bs, hi, hmem⟩))))

/-- **A closed property holds of a tree** once it holds of a node whose conversions below have
it. -/
theorem convertWith (h : Closed P)
    (node : ∀ (d : Description) (below : Below), below.All P →
      P _ (Description.convertNode o other d below))
    (d : Description) : P _ (d.convertWith o other) := by
  induction d using Description.induction with
  | node d ih =>
    rw [Description.convertWith_eq]
    exact node d _ (h.conversionsBelow ih)

theorem unknownNode (h : Closed P) {d : Description} (hr : o.resolve d.typeName = none)
    (below : Below) : P _ (Description.convertNode o other d below) := by
  rw [Description.convertNode_of_unknown hr]
  split
  · exact h.pure none
  · exact h.fail _

theorem inline (h : Closed P) {c : Conversion (Option Fragment)} (hc : P _ c) :
    P _ (Conversion.inline c) :=
  h.bind hc fun result => h.pure (result.map Fragment.toJson)

/-- It survives the registration of a node when it holds of the look-up of the path and of the
registration itself. -/
theorem extracted (h : Closed P) {path : String} (htaken : P _ (isTaken path))
    (hregister : ∀ schema, P _ (register path schema)) {c : Conversion (Option Fragment)}
    (hc : P _ c) : P _ (Conversion.extracted path c) := by
  refine h.bind htaken fun taken => ?_
  cases taken with
  | true => exact h.pure _
  | false =>
    refine h.bind hc fun result => ?_
    cases result with
    | none => exact h.pure none
    | some f => exact h.bind (hregister _) fun _ => h.pure _

/-- Without handlers it need not be known of conversions from elsewhere, and what is registered is
the result of a kind. -/
theorem convertNode_of_no_handlers (h : Closed P) (ho : o.handlers = []) {d : Description}
    {below : Below} (hb : below.All P)
    (hplaced : ∀ c : Conversion Fragment, P _ c →
      P _ (placed (o.toSettings.extraction? d.leadingFragment) (some <$> c))) :
    P _ (Description.convertNode o other d below) := by
  cases hk : Kind.ofName? d.typeName with
  | none => exact h.unknownNode (Options.resolve_of_unknown ho hk) below
  | some kind =>
    rw [Description.convertNode_of_kind (Options.resolve_of_kind ho hk)]
    exact hplaced _ (h.kind kind o.toSettings d.toTraits hb _)

end Closed

/-! ## Handlers and whole conversions -/

namespace Lasting

variable {P : (α : Type) → Conversion α → Prop} {o : Options}
  {other : Description → Conversion (Option Json)}

theorem handling (h : Lasting P) {ofKind : Kind → Fragment → Conversion Fragment}
    (hk : ∀ kind f, P _ (ofKind kind f))
    (ho : ∀ d, P _ (other d)) : ∀ steps : Handling, P _ (steps.run ofKind other)
  | .finish result => h.pure result
  | .fail error => h.fail error
  | .delegate kind f next =>
    h.bind (h.attempt (hk kind f)) fun result => handling h hk ho (next result)
  | .convert d next => h.bind (h.attempt (ho d)) fun result => handling h hk ho (next result)

/-- It holds of a node when it survives the registration of that node. -/
theorem convertNode (h : Lasting P) (hother : ∀ d, P _ (other d)) {d : Description} {below : Below}
    (hb : below.All P)
    (hplaced : ∀ c, P _ c → P _ (placed (o.toSettings.extraction? d.leadingFragment) c)) :
    P _ (Description.convertNode o other d below) := by
  have hkind : ∀ kind f, P _ (Kind.convert kind o.toSettings d.toTraits below f) :=
    fun kind f => h.kind kind o.toSettings d.toTraits hb f
  cases hr : o.resolve d.typeName with
  | none => exact h.unknownNode hr below
  | some handling =>
    cases handling with
    | inl handler =>
      rw [Description.convertNode_of_handler hr]
      exact hplaced _ (h.handling hkind hother _)
    | inr kind =>
      rw [Description.convertNode_of_kind hr]
      exact hplaced _ (h.map some (hkind kind _))

theorem convertNested (h : Lasting P)
    (hplaced : ∀ (d : Description) (c : Conversion (Option Fragment)), P _ c →
      P _ (placed (o.toSettings.extraction? d.leadingFragment) c))
    {bottom : Description → Conversion (Option Json)} (hbottom : ∀ d, P _ (bottom d)) :
    ∀ (n : Nat) (d : Description), P _ (Description.convertNested o bottom n d)
  | 0, d => hbottom d
  | n + 1, d => h.convertWith
    (fun d _ hb => h.convertNode (convertNested h hplaced hbottom n) hb (hplaced d)) d

/-- **A lasting property holds of a conversion**, with whatever handlers, when it survives
registration. -/
theorem convert (h : Lasting P)
    (hplaced : ∀ (d : Description) (c : Conversion (Option Fragment)), P _ c →
      P _ (placed (o.toSettings.extraction? d.leadingFragment) c)) (d : Description) :
    P _ (d.convert o) :=
  h.convertNested hplaced (fun _ => h.fail o.tooDeep) (o.nesting + 1) d

end Lasting

/-! ## Growth -/

/-- A conversion that, however it ends, only adds to the registry. -/
def Extends {α : Type} (c : Conversion α) : Prop := ∀ r, r ≤ (c.run r).2

theorem lasting_extends : Lasting @Extends where
  lift x r := by rw [run_lift]
  bind := by
    intro α β c next hc hnext r
    have hr := hc r
    rcases hrun : c.run r with ⟨e | a, r'⟩
    · rw [hrun] at hr
      rw [run_bind_of_error hrun]
      exact hr
    · rw [hrun] at hr
      rw [run_bind_of_ok hrun]
      exact le_trans hr (hnext a r')
  attempt hc r := hc r

theorem extracted_extends (path : String) {c : Conversion (Option Fragment)} (hc : c.Extends) :
    (extracted path c).Extends :=
  lasting_extends.extracted (fun r => le_refl r) (fun schema r => r.le_register path schema) hc

end Conversion

namespace Description

/-- **Every conversion only adds to the registry**, whether it succeeds, drops its node or fails. -/
theorem convert_extends (o : Options) (d : Description) (r : Registry) :
    r ≤ ((d.convert o).run r).2 := by
  refine Conversion.lasting_extends.convert (fun d c hc => ?_) d r
  cases o.toSettings.extraction? d.leadingFragment with
  | none => exact Conversion.lasting_extends.inline hc
  | some path => exact Conversion.extracted_extends path hc

end Description
end Schemata
