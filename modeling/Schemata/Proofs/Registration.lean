import Mathlib.Data.List.Flatten
import Schemata.Proofs.Success
/-!
# Registration — which nodes are registered, and in what order

Which nodes a conversion comes to depends on the registry while it runs: a node whose path is taken
is not looked into, and the path may have been taken a moment before.  `Description.Calls` follows a
conversion from node to node and from registry to registry.  The paths that are registered in the end
are those that were there and those of the nodes of a kind that were come to
(`Description.mem_paths_of_run`).

When the paths are free and distinct, nothing on the way is taken, and nodes are registered in
post-order (`Description.paths_of_run`).
-/
namespace Schemata

namespace Description

variable {o : Options} {d e n : Description} {ds : List Description} {r r' s t : Registry}
  {v : Option Json} {path : String}

/-! ## The calls of a conversion -/

/-- **A node is converted in the course of a conversion**, from the registry at that moment: it is the
one at hand, or is come to from a node that the one at hand visits after others were converted. -/
inductive Calls (o : Options) : Description → Registry → Description → Registry → Prop where
  | self {d : Description} {r : Registry} : Calls o d r d r
  | inside {d e n : Description} {r s t : Registry} {kind : Kind} {before later : List Description}
    (hkind : Kind.ofName? d.typeName = some kind)
    (hfree : ∀ path, o.path? d = some path → path ∉ r.paths)
    (hvisit : d.visitedBy kind = before ++ e :: later) (hbefore : Succession o before r s)
    (h : Calls o e s n t) : Calls o d r n t

/-- A node of a kind is come to whose path this is. -/
def CallsFor (o : Options) (d : Description) (r : Registry) (path : String) : Prop :=
  ∃ n s, Calls o d r n s ∧ (Kind.ofName? n.typeName).isSome ∧ o.path? n = some path

/-- While these are converted one after the other, a node of a kind is come to whose path this is. -/
def CallsAmong (o : Options) (ds : List Description) (r : Registry) (path : String) : Prop :=
  ∃ before e later s, ds = before ++ e :: later ∧ Succession o before r s ∧ CallsFor o e s path

theorem not_callsFor_of_unknown (hkind : Kind.ofName? d.typeName = none) :
    ¬CallsFor o d r path := by
  rintro ⟨n, s, hcalls, hsome, -⟩
  cases hcalls with
  | self =>
    rw [hkind] at hsome
    cases hsome
  | inside hk =>
    rw [hkind] at hk
    cases hk

theorem callsFor_of_taken (hpath : o.path? d = some path) (htaken : path ∈ r.paths)
    {other : String} (h : CallsFor o d r other) : other = path := by
  obtain ⟨n, s, hcalls, -, hother⟩ := h
  cases hcalls with
  | self => exact (Option.some.inj (hpath.symm.trans hother)).symm
  | inside _ hfree => exact absurd htaken (hfree path hpath)

theorem callsFor_of_kind {kind : Kind} (hkind : Kind.ofName? d.typeName = some kind)
    (hfree : ∀ path, o.path? d = some path → path ∉ r.paths) :
    CallsFor o d r path ↔ o.path? d = some path ∨ CallsAmong o (d.visitedBy kind) r path := by
  constructor
  · rintro ⟨n, s, hcalls, hsome, hpath⟩
    cases hcalls with
    | self => exact .inl hpath
    | inside hk _ hvisit hbefore h =>
      obtain rfl := Option.some.inj (hkind.symm.trans hk)
      exact .inr ⟨_, _, _, _, hvisit, hbefore, n, s, h, hsome, hpath⟩
  · rintro (hpath | ⟨before, e, later, s, hvisit, hbefore, n, t, h, hsome, hpath⟩)
    · exact ⟨d, r, .self, by rw [hkind]; rfl, hpath⟩
    · exact ⟨n, t, .inside hkind hfree hvisit hbefore h, hsome, hpath⟩

theorem not_callsAmong_nil : ¬CallsAmong o [] r path := by
  rintro ⟨before, e, later, s, hsplit, -⟩
  cases before <;> cases hsplit

theorem callsAmong_cons (hd : (d.convert o).run r = (.ok v, s)) :
    CallsAmong o (d :: ds) r path ↔ CallsFor o d r path ∨ CallsAmong o ds s path := by
  constructor
  · rintro ⟨before, e, later, t, hsplit, hbefore, h⟩
    cases before with
    | nil =>
      cases hsplit
      cases hbefore
      exact .inl h
    | cons d' before =>
      cases hsplit
      exact .inr ⟨before, e, later, t, rfl, hbefore.eq_of_cons hd, h⟩
  · rintro (h | ⟨before, e, later, t, rfl, hbefore, h⟩)
    · exact ⟨[], d, ds, r, rfl, .nil, h⟩
    · exact ⟨d :: before, e, later, t, rfl, .cons hd hbefore, h⟩

/-! ## Registered paths -/

theorem mem_paths_of_succession (h : Succession o ds r s)
    (hds : ∀ d ∈ ds, ∀ r v s, (d.convert o).run r = (.ok v, s) →
      (path ∈ s.paths ↔ path ∈ r.paths ∨ CallsFor o d r path)) :
    path ∈ s.paths ↔ path ∈ r.paths ∨ CallsAmong o ds r path := by
  induction h with
  | nil => exact (or_iff_left not_callsAmong_nil).symm
  | cons hd _ ih =>
    rw [List.forall_mem_cons] at hds
    rw [ih hds.2, hds.1 _ _ _ hd, callsAmong_cons hd, or_assoc]

/-- **The paths after a conversion** are those before it and those of the nodes of a kind that it came
to. -/
theorem mem_paths_of_run (ho : o.handlers = []) (d : Description) :
    ∀ r v r', (d.convert o).run r = (.ok v, r') →
      (path ∈ r'.paths ↔ path ∈ r.paths ∨ CallsFor o d r path) := by
  induction d using Description.induction with
  | node d ih =>
    intro r v r' h
    have hbelow : ∀ {kind : Kind} {s : Registry}, Succession o (d.visitedBy kind) r s →
        (path ∈ s.paths ↔ path ∈ r.paths ∨ CallsAmong o (d.visitedBy kind) r path) :=
      fun hs => mem_paths_of_succession hs fun e he =>
        ih e ((d.visitedBy_sublist _).subset he)
    cases success_of_run ho h with
    | dropped hkind => exact (or_iff_left (not_callsFor_of_unknown hkind)).symm
    | referred _ hpath htaken =>
      refine ⟨.inl, fun hp => hp.elim id fun hcalls => ?_⟩
      rw [callsFor_of_taken hpath htaken hcalls]
      exact htaken
    | written hkind hpath hs =>
      have hnone : ∀ path, o.path? d ≠ some path := by simp [hpath]
      rw [hbelow hs, callsFor_of_kind hkind fun path hp => absurd hp (hnone path),
        or_iff_right (hnone path)]
    | registered hkind hpath hfree hs =>
      have hown : ∀ q, o.path? d = some q → q ∉ r.paths := fun q hq =>
        Option.some.inj (hpath.symm.trans hq) ▸ hfree
      rw [Registry.mem_paths_register, hbelow hs, callsFor_of_kind hkind hown, hpath,
        Option.some.injEq, or_assoc, or_comm (a := CallsAmong _ _ _ _), eq_comm (a := path)]

/-! ## The results of calls -/

/-- What is come to in the course of a conversion that succeeds, succeeds on the way from the first
registry to the last. -/
theorem run_of_calls (ho : o.handlers = []) (hcalls : Calls o d r n t) :
    ∀ {v r'}, (d.convert o).run r = (.ok v, r') →
      ∃ w t', (n.convert o).run t = (.ok w, t') ∧ r ≤ t ∧ t' ≤ r' := by
  induction hcalls with
  | self => exact fun h => ⟨_, _, h, le_rfl, le_rfl⟩
  | @inside d e n r s t kind before later hkind hfree hvisit hbefore _ ih =>
    intro v r' h
    have hinside : ∀ {kind' : Kind} {s' : Registry}, Kind.ofName? d.typeName = some kind' →
        Succession o (d.visitedBy kind') r s' →
        ∃ w t', (n.convert o).run t = (.ok w, t') ∧ r ≤ t ∧ t' ≤ s' := by
      intro kind' s' hkind' hs
      obtain rfl := Option.some.inj (hkind.symm.trans hkind')
      rw [hvisit] at hs
      obtain ⟨s₁, hs₁, hrest⟩ := hs.split
      obtain rfl := hbefore.unique hs₁
      cases hrest with
      | cons he hlater =>
        obtain ⟨w, t', hn, hst, ht'⟩ := ih he
        exact ⟨w, t', hn, le_trans hbefore.le hst, le_trans ht' hlater.le⟩
    cases success_of_run ho h with
    | dropped hnone =>
      rw [hkind] at hnone
      cases hnone
    | referred _ hpath htaken => exact absurd htaken (hfree _ hpath)
    | written hkind' _ hs => exact hinside hkind' hs
    | @registered _ path schema s' hkind' _ _ hs =>
      obtain ⟨w, t', hn, hrt, ht'⟩ := hinside hkind' hs
      exact ⟨w, t', hn, hrt, le_trans ht' (s'.le_register path schema)⟩

/-- A node with a path that is converted becomes the reference to it. -/
theorem run_eq_reference (ho : o.handlers = []) (hkind : (Kind.ofName? d.typeName).isSome)
    (hpath : o.path? d = some path) (h : (d.convert o).run r = (.ok v, r')) :
    v = some (.reference path) := by
  cases success_of_run ho h with
  | dropped hnone =>
    rw [hnone] at hkind
    cases hkind
  | written _ hnone =>
    rw [hpath] at hnone
    cases hnone
  | referred _ hpath' | registered _ hpath' =>
    rw [Option.some.inj (hpath.symm.trans hpath')]

/-! ## Post-order -/

/-- **The nodes of a kind that a conversion reaches**, each after those below it: children of an object
before its key patterns, items of an array for any place before those by place, each in order of
declaration. -/
def reached (d : Description) : List Description :=
  match Kind.ofName? d.typeName with
  | none => []
  | some kind => ((d.visitedBy kind).attach.flatMap fun e => reached e.1) ++ [d]
termination_by sizeOf d
decreasing_by
  exact sizeOf_lt_of_mem_directlyBelow ((d.visitedBy_sublist kind).subset e.2)

theorem reached_of_unknown (hkind : Kind.ofName? d.typeName = none) : d.reached = [] := by
  rw [reached, hkind]

theorem reached_of_kind {kind : Kind} (hkind : Kind.ofName? d.typeName = some kind) :
    d.reached = (d.visitedBy kind).flatMap reached ++ [d] := by
  rw [reached, hkind]
  simp

theorem reached_sublist (d : Description) : d.reached.Sublist d.nodes := by
  induction d using Description.induction with
  | node d ih =>
    cases hkind : Kind.ofName? d.typeName with
    | none =>
      rw [reached_of_unknown hkind]
      exact List.nil_sublist _
    | some kind =>
      have hvisited := d.visitedBy_sublist kind
      have hbelow : ((d.visitedBy kind).flatMap reached).Sublist d.belowNodes := by
        rw [belowNodes_eq]
        exact (List.Sublist.flatMap_right _ fun e he => ih e (hvisited.subset he)).trans
          (hvisited.flatMap nodes)
      rw [reached_of_kind hkind, nodes_eq]
      exact hbelow.append_right [d]

/-- The paths of the nodes that are reached, in that order. -/
def reachedPaths (o : Options) (d : Description) : List String := d.reached.filterMap o.path?

theorem reachedPaths_of_kind {kind : Kind} (hkind : Kind.ofName? d.typeName = some kind) :
    d.reachedPaths o = (d.visitedBy kind).flatMap (reachedPaths o) ++ (o.path? d).toList := by
  unfold reachedPaths
  rw [reached_of_kind hkind, List.filterMap_append, List.filterMap_flatMap]
  cases hpath : o.path? d <;> simp [hpath]

/-- These paths are distinct and none is taken. -/
structure Fresh (paths : List String) (r : Registry) : Prop where
  nodup : paths.Nodup
  free : ∀ path ∈ paths, path ∉ r.paths

theorem Fresh.left {ps qs : List String} (h : Fresh (ps ++ qs) r) : Fresh ps r where
  nodup := h.nodup.of_append_left
  free := fun path hp => h.free path (List.mem_append_left _ hp)

/-- Once the first of them are registered, the rest are still fresh. -/
theorem Fresh.right {ps qs : List String} (h : Fresh (ps ++ qs) r) (hs : s.paths = r.paths ++ ps) :
    Fresh qs s where
  nodup := h.nodup.of_append_right
  free := by
    intro path hq hmem
    rw [hs, List.mem_append] at hmem
    rcases hmem with hr | hp
    · exact h.free path (List.mem_append_right _ hq) hr
    · exact List.disjoint_of_nodup_append h.nodup hp hq

theorem paths_of_succession (h : Succession o ds r s)
    (hds : ∀ d ∈ ds, ∀ r v s, (d.convert o).run r = (.ok v, s) → Fresh (d.reachedPaths o) r →
      s.paths = r.paths ++ d.reachedPaths o)
    (hfresh : Fresh (ds.flatMap (reachedPaths o)) r) :
    s.paths = r.paths ++ ds.flatMap (reachedPaths o) := by
  induction h with
  | nil => exact (List.append_nil _).symm
  | cons hd _ ih =>
    rw [List.forall_mem_cons] at hds
    rw [List.flatMap_cons] at hfresh ⊢
    have hpaths := hds.1 _ _ _ hd hfresh.left
    rw [ih hds.2 (hfresh.right hpaths), hpaths, List.append_assoc]

/-- **Fresh paths are registered in post-order.** -/
theorem paths_of_run (ho : o.handlers = []) (d : Description) :
    ∀ r v r', (d.convert o).run r = (.ok v, r') → Fresh (d.reachedPaths o) r →
      r'.paths = r.paths ++ d.reachedPaths o := by
  induction d using Description.induction with
  | node d ih =>
    intro r v r' h hfresh
    have hbelow : ∀ {kind : Kind} {s : Registry}, Succession o (d.visitedBy kind) r s →
        Fresh ((d.visitedBy kind).flatMap (reachedPaths o)) r →
        s.paths = r.paths ++ (d.visitedBy kind).flatMap (reachedPaths o) :=
      fun hs => paths_of_succession hs fun e he => ih e ((d.visitedBy_sublist _).subset he)
    cases success_of_run ho h with
    | dropped hkind =>
      rw [reachedPaths, reached_of_unknown hkind]
      exact (List.append_nil _).symm
    | @referred kind path hkind hpath htaken =>
      rw [reachedPaths_of_kind hkind, hpath] at hfresh
      exact absurd htaken (hfresh.free path (List.mem_append_right _ List.mem_cons_self))
    | written hkind hpath hs =>
      rw [reachedPaths_of_kind hkind, hpath] at hfresh ⊢
      rw [hbelow hs hfresh.left]
      exact congrArg _ (List.append_nil _).symm
    | @registered kind path schema s hkind hpath hfree hs =>
      rw [reachedPaths_of_kind hkind, hpath] at hfresh ⊢
      have hpaths := hbelow hs hfresh.left
      -- No node below has the path, so it is still free when its own turn comes.
      have hown : path ∉ s.paths := (hfresh.right hpaths).free path List.mem_cons_self
      rw [Registry.paths_register, if_neg hown, hpaths, List.append_assoc]
      rfl

/-! ## What a conversion registers -/

/-- **What a conversion that succeeds registers.**  The paths after it are those before it and those
of the nodes of a kind that it came to, each of which became the reference to its path.  New paths are
absolute and stand once, at the end; and where the paths of the tree are fresh, they stand in
post-order of the nodes that are reached. -/
theorem convert_registers {given : Options} (hvalid : given.validate = .ok o)
    (ho : o.handlers = []) (h : (d.convert o).run r = (.ok v, r')) :
    (∀ path, path ∈ r'.paths ↔ path ∈ r.paths ∨ CallsFor o d r path) ∧
    (∀ n t path, Calls o d r n t → (Kind.ofName? n.typeName).isSome → o.path? n = some path →
      ∃ t', (n.convert o).run t = (.ok (some (.reference path)), t') ∧ r ≤ t ∧ t' ≤ r') ∧
    ∃ added, r'.paths = r.paths ++ added ∧ added.Nodup ∧
      (∀ path ∈ added, path ∉ r.paths ∧ Settings.isAbsolute path = true) ∧
      ((o.ownPaths d).Nodup → (∀ path ∈ o.ownPaths d, path ∉ r.paths) →
        added = d.reached.filterMap o.path?) := by
  have hpaths : ∀ path, path ∈ r'.paths ↔ path ∈ r.paths ∨ CallsFor o d r path :=
    fun path => mem_paths_of_run ho d r v r' h
  refine ⟨hpaths, fun n t path hcalls hkind hpath => ?_, ?_⟩
  · obtain ⟨w, t', hn, hrt, ht'⟩ := run_of_calls ho hcalls h
    obtain rfl := run_eq_reference ho hkind hpath hn
    exact ⟨t', hn, hrt, ht'⟩
  · have hle : r ≤ r' := by
      have hextends := d.convert_extends o r
      rwa [h] at hextends
    obtain ⟨added, hentries⟩ := Registry.le_iff.1 hle
    obtain ⟨hnodup, hnew⟩ := Registry.nodup_added hentries
    have happend := Registry.paths_eq_append hentries
    refine ⟨Members.names added, happend, hnodup, fun path hp => ⟨hnew path hp, ?_⟩,
      fun hdistinct hfree => ?_⟩
    · have hmem : path ∈ r'.paths := happend ▸ List.mem_append_right _ hp
      obtain ⟨n, t, -, -, hpath⟩ := ((hpaths path).1 hmem).resolve_left (hnew path hp)
      exact Options.isAbsolute_of_path? hvalid hpath
    · have hreached := (d.reached_sublist).filterMap o.path?
      have hfresh : Fresh (d.reachedPaths o) r :=
        ⟨hdistinct.sublist hreached, fun path hp => hfree path (hreached.subset hp)⟩
      rw [paths_of_run ho d r v r' h hfresh] at happend
      exact (List.append_cancel_left happend).symm

/-- A named object with a child that is forbidden, an array with items for any place and by place, and
a key pattern: all are named. -/
theorem convert_registers_postorder :
    let named (name typeName : String) := (ofType typeName).withMeta [("extract", .string name)]
    let forbidden := (named "F" "string").withFlags { presence := some .forbidden }
    let array := ((ofType "array").withOrderedItem (named "/O" "number")).withItem (named "I" "string")
    let d := { ((named "D" "object").withChild "f" forbidden).withChild "a" array with
      patterns := some [⟨some "x", none, named "P" "date"⟩] }
    let given : Options := { extract := true, extractPath := "" }
    let o : Options := { given with extractPath := "/" }
    let run := (d.convert o).run {}
    given.validate = .ok o ∧ run.1 = .ok (some (.reference "/D")) ∧
      run.2.paths = ["/I", "/O", "/P", "/D"] ∧
      d.reached.filterMap o.path? = ["/I", "/O", "/P", "/D"] ∧ CallsFor o d {} "/O" := by
  intro named forbidden array d given o run
  have hpaths : run.2.paths = ["/I", "/O", "/P", "/D"] := rfl
  have hvalid : given.validate = .ok o := rfl
  have hresult : run.1 = .ok (some (.reference "/D")) := rfl
  obtain ⟨hcalls, -, added, hadded, -, -, horder⟩ :=
    convert_registers (o := o) hvalid rfl (Prod.ext hresult rfl : run = _)
  have hdistinct : (o.ownPaths d).Nodup := by decide +kernel
  have hfresh := horder hdistinct fun _ _ => List.not_mem_nil
  refine ⟨hvalid, hresult, hpaths, ?_, ?_⟩
  · rw [← hfresh]
    exact hadded.symm.trans hpaths
  · have hmem : "/O" ∈ run.2.paths := hpaths ▸ by decide
    exact ((hcalls "/O").1 hmem).resolve_left List.not_mem_nil

end Description
end Schemata
