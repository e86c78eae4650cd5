import Schemata.Description.Build
import Schemata.Proofs.Acceptance
import Schemata.Proofs.Node
import Schemata.Proofs.Tree
/-!
# Tolerance — what is unknown, when it is tolerated

With both tolerances on, rules that a kind does not know are skipped and descriptions of unknown
types are dropped.  That is as if they had not been there: the conversion does what the strict one
does with the description *pruned*, which has neither (`Description.convert_pruned`).  Tolerance
never puts something else in the place of what it does not know.

The key of a key pattern is read before its value is dropped, so it must be one that is not refused.
-/
namespace Schemata

/-! ## Options -/

namespace Options

/-- Both tolerances on. -/
def tolerant (o : Options) : Options :=
  { o with ignoreUnknownRules := true, ignoreUnknownTypes := true }

/-- Both tolerances off. -/
def strict (o : Options) : Options :=
  { o with ignoreUnknownRules := false, ignoreUnknownTypes := false }

theorem ipFormat_tolerant (o : Options) : o.tolerant.ipFormat = o.strict.ipFormat := rfl

end Options

/-! ## Pruning -/

/-- The rules that the kind of a node knows, or all of them when it has no kind. -/
def Traits.knownRules (t : Traits) : List Rule :=
  match Kind.ofName? t.typeName with
  | some kind => t.rules.filter kind.knows
  | none => t.rules

def Traits.pruned (t : Traits) : Traits := { t with rules := t.knownRules }

namespace Description

/-- Is the type that of a kind? -/
def isKnown (d : Description) : Bool := (Kind.ofName? d.typeName).isSome

mutual

/-- **A description without what is unknown**: at every node, without the rules that its kind does
not know and the descriptions of unknown types.  The descriptions of keys stay as they are. -/
def pruned : Description → Description
  | ⟨traits, items, orderedItems, children, patterns, alternatives⟩ =>
    ⟨traits.pruned, prunedItems? items, prunedItems? orderedItems, prunedChildren? children,
      prunedPatterns? patterns, prunedBranches? alternatives⟩

/-- Items without what is unknown, if there is a list of them. -/
def prunedItems? : Option (List Description) → Option (List Description)
  | none => none
  | some ds => some (prunedItems ds)

def prunedItems : List Description → List Description
  | [] => []
  | d :: ds => if d.isKnown then pruned d :: prunedItems ds else prunedItems ds

/-- Children without what is unknown, if there is a list of them. -/
def prunedChildren? :
    Option (List (String × Description)) → Option (List (String × Description))
  | none => none
  | some cs => some (prunedChildren cs)

def prunedChildren : List (String × Description) → List (String × Description)
  | [] => []
  | (key, d) :: cs =>
    if d.isKnown then (key, pruned d) :: prunedChildren cs else prunedChildren cs

/-- Key patterns without what is unknown, if there is a list of them. -/
def prunedPatterns? :
    Option (List (PatternRule Description)) → Option (List (PatternRule Description))
  | none => none
  | some ps => some (prunedPatterns ps)

def prunedPatterns : List (PatternRule Description) → List (PatternRule Description)
  | [] => []
  | ⟨regex, schema, rule⟩ :: ps =>
    if rule.isKnown then ⟨regex, schema, pruned rule⟩ :: prunedPatterns ps else prunedPatterns ps

/-- Branches without what is unknown, if there is a list of them. -/
def prunedBranches? :
    Option (List (Alternative Description)) → Option (List (Alternative Description))
  | none => none
  | some bs => some (prunedBranches bs)

def prunedBranches : List (Alternative Description) → List (Alternative Description)
  | [] => []
  | .conditional c :: bs => .conditional c :: prunedBranches bs
  | .schema d :: bs =>
    if d.isKnown then .schema (pruned d) :: prunedBranches bs else prunedBranches bs

end

theorem toTraits_pruned (d : Description) : d.pruned.toTraits = d.toTraits.pruned := by
  cases d
  rfl

end Description

/-! ## Kinds -/

section Kinds

variable {o : Options} {t : Traits} {kind : Kind}

theorem Traits.rules_pruned (hk : Kind.ofName? t.typeName = some kind) :
    t.pruned.rules = t.rules.filter kind.knows := by
  rw [pruned, knownRules, hk]

theorem Keywords.foldlM_pruned {α : Type} {step : Settings → α → Rule → Except ConvertError α}
    (h : ∀ a, kind.TakesRules a fun s => step s a) (hk : Kind.ofName? t.typeName = some kind)
    (a : α) :
    t.rules.foldlM (step o.tolerant.toSettings) a =
      t.pruned.rules.foldlM (step o.strict.toSettings) a := by
  rw [Traits.rules_pruned hk]
  exact foldlM_filter h rfl o.ipFormat_tolerant t.rules a

/-- **A kind skips the rules that it does not know** as if they were not there. -/
theorem Kind.convert_knownRules (hk : Kind.ofName? t.typeName = some kind) (below : Below)
    (f : Fragment) :
    kind.convert o.tolerant.toSettings t below f =
      kind.convert o.strict.toSettings t.pruned below f := by
  cases kind with
  | string =>
    have hrules := Keywords.foldlM_pruned (o := o) (Keywords.takesRules_applyStringRule t.flags) hk
    simp only [Kind.convert, Keywords.applyString, hrules]
    rfl
  | number =>
    have hrules := Keywords.foldlM_pruned (o := o) Keywords.takesRules_applyNumberRule hk
    simp only [Kind.convert, Keywords.applyNumber, hrules]
  | boolean =>
    have hrules := Keywords.foldlM_pruned (o := o) (fun _ => Keywords.takesRules_boolean) hk ()
    simp only [Kind.convert, Keywords.applyBoolean, Keywords.forM_eq_foldlM, hrules]
    rfl
  | binary =>
    have hrules := Keywords.foldlM_pruned (o := o) Keywords.takesRules_binary hk
    simp only [Kind.convert, Keywords.applyBinary, hrules]
    rfl
  | date =>
    have hrules := Keywords.foldlM_pruned (o := o) Keywords.takesRules_applyDateRule hk
    simp only [Kind.convert, Keywords.applyDate, hrules]
    rfl
  | array =>
    have hrules := Keywords.foldlM_pruned (o := o) Keywords.takesRules_applyArrayRule hk
    simp only [Kind.convert, Keywords.applyArray, Keywords.applyArrayTraits, hrules]
    rfl
  | object =>
    have hrules := Keywords.foldlM_pruned (o := o) Keywords.takesRules_object hk
    simp only [Kind.convert, Keywords.applyObject, Keywords.applyObjectTraits, hrules]
    rfl
  | alternatives =>
    have hrules :=
      Keywords.foldlM_pruned (o := o) (fun _ => Keywords.takesRules_alternatives) hk ()
    simp only [Kind.convert, Keywords.applyAlternatives, Keywords.forM_eq_foldlM, hrules]

end Kinds

namespace Description

variable {o : Options} {other other' : Description → Conversion (Option Json)}

/-- A description is converted as its pruned form is, if its type is known. -/
def PrunesAt (o : Options) (other other' : Description → Conversion (Option Json))
    (d : Description) : Prop :=
  d.isKnown = true → d.convertWith o.tolerant other = d.pruned.convertWith o.strict other'

/-- The keys of the key patterns whose values are dropped are not refused. -/
def KeepsKeys (d : Description) : Prop :=
  ∀ p ∈ d.patterns.getD [], p.rule.isKnown = false → ¬p.LacksKey

/-! ## Descriptions below a node -/

/-- **A description of an unknown type is dropped.** -/
theorem convertWith_tolerant_of_unknown (ho : o.handlers = []) {d : Description}
    (hd : ¬d.isKnown = true) : d.convertWith o.tolerant other = pure none := by
  rw [isKnown, Option.not_isSome_iff_eq_none] at hd
  rw [convertWith_eq, convertNode_of_unknown (Options.resolve_of_unknown (o := o.tolerant) ho hd)]
  rfl

theorem presence_pruned (d : Description) : d.pruned.presence = d.presence := by
  cases d
  rfl

theorem convertItems_pruned (ho : o.handlers = []) : ∀ {ds : List Description},
    (∀ d ∈ ds, PrunesAt o other other' d) →
      convertItems o.tolerant other ds = convertItems o.strict other' (prunedItems ds)
  | [], _ => rfl
  | d :: ds, h => by
    rw [List.forall_mem_cons] at h
    rw [convertItems, prunedItems, convertItems_pruned ho h.2]
    by_cases hd : d.isKnown = true
    · rw [if_pos hd, convertItems, h.1 hd]
    · rw [if_neg hd, convertWith_tolerant_of_unknown ho hd]
      simp

theorem convertChildren_pruned (ho : o.handlers = []) : ∀ {cs : List (String × Description)},
    (∀ c ∈ cs, PrunesAt o other other' c.2) →
      convertChildren o.tolerant other cs = convertChildren o.strict other' (prunedChildren cs)
  | [], _ => rfl
  | (key, d) :: cs, h => by
    rw [List.forall_mem_cons] at h
    rw [convertChildren, prunedChildren, convertChildren_pruned ho h.2]
    by_cases hd : d.isKnown = true
    · rw [if_pos hd, convertChildren, h.1 hd, presence_pruned]
    · rw [if_neg hd, convertWith_tolerant_of_unknown ho hd]
      simp

theorem convertPatterns_pruned (ho : o.handlers = []) : ∀ {ps : List (PatternRule Description)},
    (∀ p ∈ ps, p.rule.isKnown = false → ¬p.LacksKey) →
      (∀ p ∈ ps, PrunesAt o other other' p.rule) →
      convertPatterns o.tolerant other ps = convertPatterns o.strict other' (prunedPatterns ps)
  | [], _, _ => rfl
  | ⟨regex, schema, rule⟩ :: ps, hkeys, h => by
    rw [List.forall_mem_cons] at hkeys h
    rw [convertPatterns, prunedPatterns, convertPatterns_pruned ho hkeys.2 h.2]
    by_cases hrule : rule.isKnown = true
    · rw [if_pos hrule, convertPatterns, h.1 hrule]
    · obtain ⟨key, hkey⟩ :=
        (Keywords.accepted_keyPattern _).2 (hkeys.1 (Bool.eq_false_iff.2 hrule))
      rw [if_neg hrule, convertWith_tolerant_of_unknown ho hrule, hkey]
      simp [Conversion.lift]

theorem convertBranches_pruned (ho : o.handlers = []) : ∀ {bs : List (Alternative Description)},
    (∀ d, Alternative.schema d ∈ bs → PrunesAt o other other' d) →
      convertBranches o.tolerant other bs = convertBranches o.strict other' (prunedBranches bs)
  | [], _ => rfl
  | .conditional c :: bs, _ => by
    rw [convertBranches, prunedBranches, convertBranches]
  | .schema d :: bs, h => by
    rw [convertBranches, prunedBranches,
      convertBranches_pruned ho fun e he => h e (List.mem_cons_of_mem _ he)]
    by_cases hd : d.isKnown = true
    · rw [if_pos hd, convertBranches, h d List.mem_cons_self hd]
    · rw [if_neg hd, convertWith_tolerant_of_unknown ho hd]
      simp

theorem conversionsBelow_pruned (ho : o.handlers = []) {d : Description} (hkeys : d.KeepsKeys)
    (h : ∀ e ∈ d.directlyBelow, PrunesAt o other other' e) :
    d.conversionsBelow o.tolerant other = d.pruned.conversionsBelow o.strict other' := by
  obtain ⟨traits, items, orderedItems, children, patterns, alternatives⟩ := d
  simp only [mem_directlyBelow] at h
  simp only [conversionsBelow, pruned, Below.mk.injEq]
  refine ⟨?_, ?_, ?_, ?_, ?_⟩
  · cases items with
    | none => rfl
    | some ds => exact convertItems_pruned ho fun e he => h e (.inl ⟨ds, rfl, he⟩)
  · cases orderedItems with
    | none => rfl
    | some ds => exact convertItems_pruned ho fun e he => h e (.inr (.inl ⟨ds, rfl, he⟩))
  · cases children with
    | none => rfl
    | some cs =>
      exact congrArg (some <$> ·) (convertChildren_pruned ho fun c hmem =>
        h c.2 (.inr (.inr (.inl ⟨cs, c.1, rfl, hmem⟩))))
  · cases patterns with
    | none => rfl
    | some ps =>
      exact congrArg (some <$> ·) (convertPatterns_pruned ho hkeys fun p hmem =>
        h p.rule (.inr (.inr (.inr (.inl ⟨ps, p, rfl, hmem, rfl⟩)))))
  · cases alternatives with
    | none => rfl
    | some bs =>
      exact convertBranches_pruned ho fun e he => h e (.inr (.inr (.inr (.inr ⟨bs, rfl, he⟩))))

/-! ## Nodes -/

theorem convertNode_pruned (ho : o.handlers = []) {d : Description} (hd : d.isKnown = true)
    (below : Below) :
    convertNode o.tolerant other d below = convertNode o.strict other' d.pruned below := by
  obtain ⟨kind, hk⟩ := Option.isSome_iff_exists.1 hd
  have hname : d.pruned.typeName = d.typeName := by
    cases d
    rfl
  have hr := Options.resolve_of_kind (o := o.tolerant) ho hk
  have hr' := Options.resolve_of_kind (o := o.strict) ho (hname ▸ hk)
  rw [convertNode_of_kind hr, convertNode_of_kind hr', toTraits_pruned,
    Kind.convert_knownRules hk]
  rfl

theorem convertWith_pruned (ho : o.handlers = []) (d : Description)
    (hkeys : ∀ e ∈ d.nodes, e.KeepsKeys) : PrunesAt o other other' d := by
  induction d using Description.induction with
  | node d ih =>
    intro hd
    have hbelow := conversionsBelow_pruned ho (hkeys d d.mem_nodes_self) fun e he =>
      ih e he fun n hn => hkeys n (d.belowNodes_subset (nodes_subset_of_mem_directlyBelow he hn))
    rw [convertWith_eq, convertWith_eq, hbelow, convertNode_pruned ho hd]

/-- **Tolerance is pruning.**  From every registry, a description whose type is known is converted
with both tolerances on as its pruned form is with both off: with the same result or error, and to
the same registry. -/
theorem convert_pruned (ho : o.handlers = []) {d : Description} (hd : d.isKnown = true)
    (hkeys : ∀ e ∈ d.nodes, e.KeepsKeys) (r : Registry) :
    (d.convert o.tolerant).run r = (d.pruned.convert o.strict).run r :=
  congrArg (fun c : Conversion (Option Json) => c.run r) (convertWith_pruned ho d hkeys hd)

/-- An object with a rule that is not known, a named child with another, and a child and a key
pattern of an unknown type. -/
theorem convert_pruned_nested :
    let unknown := ofType "symbol"
    let named := ((ofType "string").withRule "shout" .null).withMeta [("extract", .string "A")]
    let object := (((ofType "object").withRule "shout" .null).withChild "a" named).withChild "b"
      unknown
    let pattern : PatternRule Description := { regex := some "^x", rule := unknown }
    let node : Description := { object with patterns := some [pattern] }
    let o : Options := { extract := true }
    node.isKnown = true ∧ (∀ e ∈ node.nodes, e.KeepsKeys) ∧
      (node.convert o.tolerant).run {} = (node.pruned.convert o.strict).run {} ∧
      ((node.pruned.convert o.strict).run {}).2.paths = ["/A"] := by
  intro unknown named object pattern node o
  have hempty : ∀ d : Description, d.patterns = none → d.KeepsKeys := by
    rintro d hd p hp
    rw [hd] at hp
    cases hp
  have hnode : node.KeepsKeys := by
    intro p hp
    obtain rfl := List.mem_singleton.1 hp
    exact fun _ hlacks => Option.some_ne_none _ hlacks
  have hkeys : ∀ e ∈ node.nodes, e.KeepsKeys := by
    change ∀ e ∈ [named, unknown, unknown, node], e.KeepsKeys
    simp only [List.forall_mem_cons]
    exact ⟨hempty _ rfl, hempty _ rfl, hempty _ rfl, hnode, fun _ h => absurd h List.not_mem_nil⟩
  exact ⟨rfl, hkeys, convert_pruned rfl rfl hkeys {}, rfl⟩

end Description
end Schemata
