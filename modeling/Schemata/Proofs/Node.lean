import Schemata.Conversion.Node
/-!
# Node — the conversion of one node, case by case

What one node does is said once here, as equations: by what resolves its type, and by whether its
result is registered.  The proofs about conversions start from these and do not open
`Description.convertNode`.
-/
namespace Schemata

namespace Conversion

variable {α β : Type}

theorem run_bind_of_ok {c : Conversion α} {r r' : Registry} {a : α} (h : c.run r = (.ok a, r'))
    (next : α → Conversion β) : (c >>= next).run r = (next a).run r' := by
  rw [run_bind, h]

theorem run_bind_of_error {c : Conversion α} {r r' : Registry} {e : ConvertError}
    (h : c.run r = (.error e, r')) (next : α → Conversion β) :
    (c >>= next).run r = (.error e, r') := by
  rw [run_bind, h]

/-- **Of two parts that succeed together, each succeeds**, the second from where the first ended. -/
theorem exists_of_bind_ok {c : Conversion α} {next : α → Conversion β} {r t : Registry} {b : β}
    (h : (c >>= next).run r = (.ok b, t)) :
    ∃ a s, c.run r = (.ok a, s) ∧ (next a).run s = (.ok b, t) := by
  rcases hrun : c.run r with ⟨e | a, s⟩
  · rw [run_bind_of_error hrun] at h
    cases h
  · rw [run_bind_of_ok hrun] at h
    exact ⟨a, s, rfl, h⟩

theorem exists_of_map_ok {c : Conversion α} {g : α → β} {r s : Registry} {b : β}
    (h : (g <$> c).run r = (.ok b, s)) : ∃ a, c.run r = (.ok a, s) ∧ b = g a := by
  rw [← bind_pure_comp] at h
  obtain ⟨a, _, ha, hpure⟩ := exists_of_bind_ok h
  cases hpure
  exact ⟨a, ha, rfl⟩

theorem eq_of_lift_ok {x : Except ConvertError α} {r s : Registry} {a : α}
    (h : (lift x).run r = (.ok a, s)) : x = .ok a ∧ s = r := by
  rw [run_lift] at h
  cases h
  exact ⟨rfl, rfl⟩

/-- Going on only from a result is the same as not having asked for the error. -/
theorem attempt_bind (c : Conversion α) {next : Except ConvertError α → Conversion β}
    (hfail : ∀ e, next (.error e) = fail e) :
    c.attempt >>= next = c >>= fun a => next (.ok a) := by
  refine ext fun r => ?_
  rw [run_bind, run_attempt, run_bind]
  rcases c.run r with ⟨e | a, r'⟩
  · dsimp only
    rw [hfail, run_fail]
  · rfl

/-- A conversion whose result is registered under a path if there is one, and written otherwise. -/
def placed (path? : Option String) (c : Conversion (Option Fragment)) : Conversion (Option Json) :=
  match path? with
  | some path => extracted path c
  | none => inline c

theorem run_map (g : α → β) (c : Conversion α) (r : Registry) :
    (g <$> c).run r = match c.run r with
      | (.ok a, r) => (.ok (g a), r)
      | (.error e, r) => (.error e, r) := by
  rw [← bind_pure_comp, run_bind]
  rcases c.run r with ⟨_ | _, _⟩ <;> rfl

theorem inline_map_some (c : Conversion Fragment) :
    inline (some <$> c) = (fun f => some f.toJson) <$> c := by
  simp only [inline, map_eq_pure_bind, bind_assoc, pure_bind, Option.map_some]

theorem run_extracted_of_contains {path : String} {r : Registry} (h : r.contains path = true)
    (c : Conversion (Option Fragment)) :
    (extracted path c).run r = (.ok (some (.reference path)), r) := by
  rw [extracted, run_bind, run_isTaken, h]
  rfl

theorem run_extracted_of_not_contains {path : String} {r : Registry}
    (h : ¬r.contains path = true) (c : Conversion (Option Fragment)) :
    (extracted path c).run r = match c.run r with
      | (.ok (some f), r) => (.ok (some (.reference path)), r.register path f.takeExtract.2.toJson)
      | (.ok none, r) => (.ok none, r)
      | (.error e, r) => (.error e, r) := by
  rw [Bool.not_eq_true] at h
  rw [extracted, run_bind, run_isTaken, h]
  simp only [Bool.false_eq_true, if_false]
  rw [run_bind]
  rcases c.run r with ⟨_ | _ | f, r'⟩ <;> rfl

/-- **How a conversion ends whose result is placed**: it fails before that, or is not run because the
path is taken, or its result is written or registered. -/
inductive Ending (path? : Option String) (c : Conversion Fragment) (r : Registry) :
    Except ConvertError (Option Json) → Registry → Prop where
  | failed {e : ConvertError} {r' : Registry} (hrun : c.run r = (.error e, r')) :
    Ending path? c r (.error e) r'
  | referred {path : String} (hpath : path? = some path) (htaken : r.contains path = true) :
    Ending path? c r (.ok (some (.reference path))) r
  | written {f : Fragment} {r' : Registry} (hpath : path? = none) (hrun : c.run r = (.ok f, r')) :
    Ending path? c r (.ok (some f.toJson)) r'
  | registered {path : String} {f : Fragment} {r' : Registry} (hpath : path? = some path)
    (hfree : ¬r.contains path = true) (hrun : c.run r = (.ok f, r')) :
    Ending path? c r (.ok (some (.reference path))) (r'.register path f.takeExtract.2.toJson)

theorem ending_of_run {path? : Option String} {c : Conversion Fragment} {r r' : Registry}
    {x : Except ConvertError (Option Json)} (h : (placed path? (some <$> c)).run r = (x, r')) :
    Ending path? c r x r' := by
  cases path? with
  | none =>
    rw [placed, inline_map_some, run_map] at h
    rcases hrun : c.run r with ⟨e | f, r₁⟩ <;> rw [hrun] at h <;> cases h
    · exact .failed hrun
    · exact .written rfl hrun
  | some path =>
    rw [placed] at h
    by_cases hp : r.contains path = true
    · rw [run_extracted_of_contains hp] at h
      cases h
      exact .referred rfl hp
    · rw [run_extracted_of_not_contains hp, run_map] at h
      rcases hrun : c.run r with ⟨e | f, r₁⟩ <;> rw [hrun] at h <;> cases h
      · exact .failed hrun
      · exact .registered rfl hp hrun

end Conversion

/-! ## Kinds -/

theorem Keywords.applyAlternatives_eq (settings : Settings) (t : Traits)
    (branches : Conversion (List Json)) (f : Fragment) :
    Keywords.applyAlternatives settings t branches f = (do
      Conversion.lift (t.rules.forM (unknownRule settings "alternatives"))
      let schemas ← branches
      return f.takeTerm.2.insert (f.takeTerm.1.getD Keywords.defaultCombinator) (.array schemas)) :=
  rfl

/-! ## Handlers -/

namespace Handling

variable {ofKind : Kind → Fragment → Conversion Fragment}
  {other : Description → Conversion (Option Json)}

theorem run_delegate_onResult (kind : Kind) (f : Fragment) (next : Fragment → Handling) :
    (delegate kind f (.onResult next)).run ofKind other =
      ofKind kind f >>= fun g => (next g).run ofKind other :=
  Conversion.attempt_bind _ fun _ => rfl

end Handling

/-! ## A node -/

namespace Description

variable {o : Options} {other : Description → Conversion (Option Json)} {node : Description}

theorem convertNode_of_unknown (h : o.resolve node.typeName = none) (below : Below) :
    convertNode o other node below =
      if o.ignoreUnknownTypes then pure none else Conversion.fail (.unknownType node.typeName) := by
  unfold convertNode
  rw [h]

theorem convertNode_of_handler {handler : Handler}
    (h : o.resolve node.typeName = some (.inl handler)) (below : Below) :
    convertNode o other node below =
      Conversion.placed (o.toSettings.extraction? node.leadingFragment)
        ((handler o.toSettings node (node.commonFragment node.leadingFragment)).run
          (fun kind f => kind.convert o.toSettings node.toTraits below f) other) := by
  unfold convertNode
  rw [h]
  rfl

theorem convertNode_of_kind {kind : Kind} (h : o.resolve node.typeName = some (.inr kind))
    (below : Below) :
    convertNode o other node below =
      Conversion.placed (o.toSettings.extraction? node.leadingFragment)
        (some <$> kind.convert o.toSettings node.toTraits below
          (node.commonFragment node.leadingFragment)) := by
  unfold convertNode
  rw [h]
  rfl

end Description

theorem Options.resolve_of_no_handlers {o : Options} (ho : o.handlers = []) (typeName : String) :
    o.resolve typeName = (Kind.ofName? typeName).map .inr := by
  rw [resolve, ho]
  rfl

theorem Options.resolve_of_unknown {o : Options} (ho : o.handlers = []) {typeName : String}
    (h : Kind.ofName? typeName = none) : o.resolve typeName = none := by
  rw [resolve_of_no_handlers ho, h]
  rfl

theorem Options.resolve_of_kind {o : Options} (ho : o.handlers = []) {typeName : String}
    {kind : Kind} (h : Kind.ofName? typeName = some kind) :
    o.resolve typeName = some (.inr kind) := by
  rw [resolve_of_no_handlers ho, h]
  rfl

theorem Settings.extraction?_of_off {s : Settings} (h : s.extract = false) (f : Fragment) :
    s.extraction? f = none := by
  rw [extraction?, h]
  rfl

end Schemata
