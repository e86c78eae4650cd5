import Schemata.Description.Basic
/-!
# Tree — a description and the descriptions below it

The lists below a node differ in what they hold beside descriptions, but a statement about all nodes
of a tree needs one induction only: a node has what all descriptions directly below it have
(`Description.induction`).  The description of a key, inside a key pattern, is none of them: it is
never converted.

`Description.nodes` lists the nodes, each after those below it.
-/
namespace Schemata

/-- The description that a branch is, unless it depends on a condition. -/
def Alternative.schema? {α : Type} : Alternative α → Option α
  | schema branch => some branch
  | conditional _ => none

namespace Description

def directlyBelow (d : Description) : List Description :=
  d.items.getD [] ++ d.orderedItems.getD [] ++ (d.children.getD []).map Prod.snd
    ++ (d.patterns.getD []).map PatternRule.rule
    ++ (d.alternatives.getD []).filterMap Alternative.schema?

theorem mem_directlyBelow {d e : Description} :
    e ∈ d.directlyBelow ↔
      (∃ ds, d.items = some ds ∧ e ∈ ds) ∨ (∃ ds, d.orderedItems = some ds ∧ e ∈ ds) ∨
      (∃ cs key, d.children = some cs ∧ (key, e) ∈ cs) ∨
      (∃ ps p, d.patterns = some ps ∧ p ∈ ps ∧ p.rule = e) ∨
      (∃ bs, d.alternatives = some bs ∧ Alternative.schema e ∈ bs) := by
  have hschema : ∀ b : Alternative Description, b.schema? = some e ↔ b = .schema e := by
    intro b
    cases b <;> simp [Alternative.schema?]
  simp only [directlyBelow, List.mem_append, List.mem_map, List.mem_filterMap, hschema]
  rcases d with ⟨t, _ | i, _ | o, _ | c, _ | p, _ | a⟩ <;> simp [or_assoc]

/-! ## Induction -/

theorem sizeOf_lt_of_mem_directlyBelow {d e : Description} (h : e ∈ d.directlyBelow) :
    sizeOf e < sizeOf d := by
  obtain ⟨t, i, o, c, p, a⟩ := d
  rw [mem_directlyBelow] at h
  simp only at h
  rcases h with ⟨ds, rfl, h⟩ | ⟨ds, rfl, h⟩ | ⟨cs, key, rfl, h⟩ | ⟨ps, q, rfl, h, rfl⟩ |
    ⟨bs, rfl, h⟩
  · have := List.sizeOf_lt_of_mem h
    simp only [mk.sizeOf_spec, Option.some.sizeOf_spec]
    omega
  · have := List.sizeOf_lt_of_mem h
    simp only [mk.sizeOf_spec, Option.some.sizeOf_spec]
    omega
  · have := List.sizeOf_lt_of_mem h
    simp only [mk.sizeOf_spec, Option.some.sizeOf_spec, Prod.mk.sizeOf_spec] at this ⊢
    omega
  · have := List.sizeOf_lt_of_mem h
    cases q
    simp only [mk.sizeOf_spec, Option.some.sizeOf_spec, PatternRule.mk.sizeOf_spec] at this ⊢
    omega
  · have := List.sizeOf_lt_of_mem h
    simp only [mk.sizeOf_spec, Option.some.sizeOf_spec, Alternative.schema.sizeOf_spec] at this ⊢
    omega

/-- **A node has what all descriptions directly below it have.** -/
theorem induction {P : Description → Prop}
    (node : ∀ d, (∀ e ∈ d.directlyBelow, P e) → P d) (d : Description) : P d :=
  node d fun e _ => induction node e
termination_by sizeOf d
decreasing_by exact sizeOf_lt_of_mem_directlyBelow ‹_›

/-! ## The nodes of a tree -/

mutual

/-- The nodes of a description, each after those below it. -/
def nodes : Description → List Description
  | ⟨traits, items, orderedItems, children, patterns, alternatives⟩ =>
    nodesOfItems? items ++ nodesOfItems? orderedItems ++ nodesOfChildren? children
      ++ nodesOfPatterns? patterns ++ nodesOfBranches? alternatives
      ++ [⟨traits, items, orderedItems, children, patterns, alternatives⟩]

/-- The nodes of items, if there is a list of them. -/
def nodesOfItems? : Option (List Description) → List Description
  | none => []
  | some ds => nodesOfItems ds

def nodesOfItems : List Description → List Description
  | [] => []
  | d :: ds => nodes d ++ nodesOfItems ds

/-- The nodes of children, if there is a list of them. -/
def nodesOfChildren? : Option (List (String × Description)) → List Description
  | none => []
  | some cs => nodesOfChildren cs

def nodesOfChildren : List (String × Description) → List Description
  | [] => []
  | (_, d) :: cs => nodes d ++ nodesOfChildren cs

/-- The nodes of key patterns, if there is a list of them. -/
def nodesOfPatterns? : Option (List (PatternRule Description)) → List Description
  | none => []
  | some ps => nodesOfPatterns ps

/-- The nodes of key patterns, without the descriptions of keys. -/
def nodesOfPatterns : List (PatternRule Description) → List Description
  | [] => []
  | ⟨_, _, d⟩ :: ps => nodes d ++ nodesOfPatterns ps

/-- The nodes of branches, if there is a list of them. -/
def nodesOfBranches? : Option (List (Alternative Description)) → List Description
  | none => []
  | some bs => nodesOfBranches bs

def nodesOfBranches : List (Alternative Description) → List Description
  | [] => []
  | .conditional _ :: bs => nodesOfBranches bs
  | .schema d :: bs => nodes d ++ nodesOfBranches bs

end

theorem nodesOfItems_eq : ∀ ds : List Description, nodesOfItems ds = ds.flatMap nodes
  | [] => rfl
  | d :: ds => by rw [nodesOfItems, nodesOfItems_eq ds, List.flatMap_cons]

theorem nodesOfChildren_eq : ∀ cs : List (String × Description),
    nodesOfChildren cs = (cs.map Prod.snd).flatMap nodes
  | [] => rfl
  | (_, d) :: cs => by
    rw [nodesOfChildren, nodesOfChildren_eq cs, List.map_cons, List.flatMap_cons]

theorem nodesOfPatterns_eq : ∀ ps : List (PatternRule Description),
    nodesOfPatterns ps = (ps.map PatternRule.rule).flatMap nodes
  | [] => rfl
  | ⟨_, _, d⟩ :: ps => by
    rw [nodesOfPatterns, nodesOfPatterns_eq ps, List.map_cons, List.flatMap_cons]

theorem nodesOfBranches_eq : ∀ bs : List (Alternative Description),
    nodesOfBranches bs = (bs.filterMap Alternative.schema?).flatMap nodes
  | [] => rfl
  | .conditional _ :: bs => nodesOfBranches_eq bs
  | .schema d :: bs => by
    rw [nodesOfBranches, nodesOfBranches_eq bs]
    rfl

def itemNodes (d : Description) : List Description := (d.items.getD []).flatMap nodes

/-- The nodes of the items by place. -/
def orderedItemNodes (d : Description) : List Description := (d.orderedItems.getD []).flatMap nodes

def childNodes (d : Description) : List Description :=
  ((d.children.getD []).map Prod.snd).flatMap nodes

def patternNodes (d : Description) : List Description :=
  ((d.patterns.getD []).map PatternRule.rule).flatMap nodes

def branchNodes (d : Description) : List Description :=
  ((d.alternatives.getD []).filterMap Alternative.schema?).flatMap nodes

def belowNodes (d : Description) : List Description :=
  d.itemNodes ++ d.orderedItemNodes ++ d.childNodes ++ d.patternNodes ++ d.branchNodes

theorem belowNodes_eq (d : Description) : d.belowNodes = d.directlyBelow.flatMap nodes := by
  simp only [belowNodes, itemNodes, orderedItemNodes, childNodes, patternNodes, branchNodes,
    directlyBelow, List.flatMap_append]

/-- **The nodes of a tree** are those below its root, then the root. -/
theorem nodes_eq (d : Description) : d.nodes = d.belowNodes ++ [d] := by
  obtain ⟨t, i, o, c, p, a⟩ := d
  have hi : ∀ ds, nodesOfItems? ds = (ds.getD []).flatMap nodes := by
    rintro (_ | ds)
    · rfl
    · exact nodesOfItems_eq ds
  have hc : nodesOfChildren? c = ((c.getD []).map Prod.snd).flatMap nodes := by
    cases c with
    | none => rfl
    | some cs => exact nodesOfChildren_eq cs
  have hp : nodesOfPatterns? p = ((p.getD []).map PatternRule.rule).flatMap nodes := by
    cases p with
    | none => rfl
    | some ps => exact nodesOfPatterns_eq ps
  have ha : nodesOfBranches? a = ((a.getD []).filterMap Alternative.schema?).flatMap nodes := by
    cases a with
    | none => rfl
    | some bs => exact nodesOfBranches_eq bs
  rw [nodes, hi, hi, hc, hp, ha]
  rfl

theorem mem_nodes_self (d : Description) : d ∈ d.nodes := by
  rw [nodes_eq]
  exact List.mem_append_right _ List.mem_cons_self

theorem belowNodes_subset (d : Description) : d.belowNodes ⊆ d.nodes := by
  rw [nodes_eq]
  exact List.subset_append_left _ _

theorem nodes_subset_of_mem_directlyBelow {d e : Description} (h : e ∈ d.directlyBelow) :
    e.nodes ⊆ d.belowNodes := by
  rw [belowNodes_eq]
  exact fun n hn => List.mem_flatMap.2 ⟨e, h, hn⟩

theorem array_sublist (d : Description) :
    (d.itemNodes ++ d.orderedItemNodes).Sublist d.belowNodes := by
  unfold belowNodes
  rw [List.append_assoc, List.append_assoc]
  exact List.sublist_append_left _ _

theorem object_sublist (d : Description) :
    (d.childNodes ++ d.patternNodes).Sublist d.belowNodes := by
  unfold belowNodes
  refine List.Sublist.trans ?_ (List.sublist_append_left _ _)
  rw [List.append_assoc (d.itemNodes ++ d.orderedItemNodes)]
  exact List.sublist_append_right _ _

theorem branches_sublist (d : Description) : d.branchNodes.Sublist d.belowNodes :=
  List.sublist_append_right _ _

end Description
end Schemata
