import Mathlib.Data.List.Induction
import Schemata.Description.Build
import Schemata.Proofs.Paths
import Schemata.Proofs.Session
/-!
# Delegates — handlers that change nothing

A type that has a handler is converted by it, whether there is a kind of that name or not, and at
every depth.  The handler that only hands the node on to the kind of its own type is not noticed:
with such handlers for whatever kinds, a session goes as it does without them
(`Converter.answers_withDelegates`).

Such a handler runs the kind over the same fragment and the same conversions below, so a node is
converted alike once the descriptions below it are; the rest is an induction on the tree, and one on
how deep handlers nest conversions of descriptions from elsewhere.
-/
namespace Schemata

/-- **A delegate**: the handler that hands a node on to a kind and keeps what the kind makes of
it. -/
def Kind.delegate (kind : Kind) : Handler := fun _ _ f =>
  .delegate kind f (.onResult fun f => .finish (some f))

theorem Kind.run_delegate (kind : Kind) (ofKind : Kind → Fragment → Conversion Fragment)
    (other : Description → Conversion (Option Json)) (s : Settings) (d : Description)
    (f : Fragment) : (kind.delegate s d f).run ofKind other = some <$> ofKind kind f := by
  rw [delegate, Handling.run_delegate_onResult, ← bind_pure_comp]
  rfl

theorem Kind.ofName?_name (kind : Kind) : ofName? kind.name = some kind := by
  cases kind <;> rfl

theorem Kind.name_injective {kind kind' : Kind} (h : kind.name = kind'.name) : kind = kind' := by
  have hname := kind.ofName?_name
  rw [h, kind'.ofName?_name] at hname
  exact (Option.some.inj hname).symm

theorem Members.get?_filter {α : Type} (p : String → Bool) (name : String) : ∀ ms : Members α,
    get? (ms.filter fun m => p m.1) name = if p name then get? ms name else none
  | [] => (ite_self none).symm
  | (n, v) :: ms => by
    have ih := get?_filter p name ms
    by_cases hn : n = name
    · subst hn
      cases hp : p n with
      | true => simp [hp, get?]
      | false => simpa [hp] using ih
    · cases hp : p n with
      | true => simp [hp, get?, hn, ih]
      | false => simp [hp, get?, hn, ih]

/-! ## Options -/

namespace Options

/-- Options where each of these kinds has a delegate for its own type. -/
def withDelegates (o : Options) (kinds : List Kind) : Options :=
  kinds.foldl (fun o kind => o.withHandler kind.name kind.delegate) o

/-- Options without handlers for the types of these kinds. -/
def withoutHandlers (o : Options) (kinds : List Kind) : Options :=
  { o with handlers := o.handlers.filter fun m => m.1 ∉ kinds.map Kind.name }

variable {o : Options} {kinds : List Kind}

theorem withDelegates_concat (o : Options) (kinds : List Kind) (kind : Kind) :
    o.withDelegates (kinds ++ [kind]) =
      (o.withDelegates kinds).withHandler kind.name kind.delegate := by
  rw [withDelegates, List.foldl_append]
  rfl

/-- Delegates are handlers and change nothing else in the options. -/
theorem withDelegates_eq (o : Options) (kinds : List Kind) :
    o.withDelegates kinds = { o with handlers := (o.withDelegates kinds).handlers } := by
  induction kinds using List.reverseRecOn with
  | nil => rfl
  | append_singleton kinds kind ih =>
    rw [withDelegates_concat, withHandler, ih]

theorem get?_withDelegates_of_mem (o : Options) {kind : Kind} (h : kind ∈ kinds) :
    Members.get? (o.withDelegates kinds).handlers kind.name = some kind.delegate := by
  induction kinds using List.reverseRecOn with
  | nil => exact absurd h List.not_mem_nil
  | append_singleton kinds last ih =>
    rw [withDelegates_concat]
    by_cases hlast : last = kind
    · rw [hlast]
      exact Members.get?_insert_self _ _ _
    · have hmem : kind ∈ kinds :=
        (List.mem_append.1 h).resolve_right fun h => hlast (List.mem_singleton.1 h).symm
      have hname : last.name ≠ kind.name := fun h => hlast (Kind.name_injective h)
      exact (Members.get?_insert_of_ne _ hname _).trans (ih hmem)

theorem get?_withDelegates_of_not_mem (o : Options) {typeName : String}
    (h : typeName ∉ kinds.map Kind.name) :
    Members.get? (o.withDelegates kinds).handlers typeName = Members.get? o.handlers typeName := by
  induction kinds using List.reverseRecOn with
  | nil => rfl
  | append_singleton kinds last ih =>
    rw [List.map_append, List.mem_append, not_or, List.map_singleton, List.mem_singleton] at h
    rw [withDelegates_concat]
    exact (Members.get?_insert_of_ne _ (Ne.symm h.2) _).trans (ih h.1)

theorem get?_withoutHandlers (o : Options) (kinds : List Kind) (typeName : String) :
    Members.get? (o.withoutHandlers kinds).handlers typeName =
      if typeName ∈ kinds.map Kind.name then none else Members.get? o.handlers typeName := by
  have hfilter := Members.get?_filter (fun name => decide (name ∉ kinds.map Kind.name)) typeName
    o.handlers
  refine hfilter.trans ?_
  by_cases h : typeName ∈ kinds.map Kind.name <;> simp only [h, not_true, not_false_eq_true,
    decide_true, decide_false, if_true, if_false, Bool.false_eq_true]

/-- Options that have no handler for these kinds have none to lose. -/
theorem withoutHandlers_of_absent (h : ∀ kind ∈ kinds, Members.get? o.handlers kind.name = none) :
    o.withoutHandlers kinds = o := by
  have hall : ∀ m ∈ o.handlers, decide (m.1 ∉ kinds.map Kind.name) = true := by
    intro m hm
    rw [decide_eq_true_eq, List.mem_map]
    rintro ⟨kind, hkind, hname⟩
    refine Members.get?_eq_none_iff.1 (h kind hkind) ?_
    rw [hname]
    exact List.mem_map_of_mem hm
  rw [withoutHandlers, List.filter_eq_self.2 hall]

theorem resolve_withHandler (o : Options) (typeName : String) (handler : Handler) :
    (o.withHandler typeName handler).resolve typeName = some (.inl handler) := by
  have hget : Members.get? (o.withHandler typeName handler).handlers typeName = some handler :=
    Members.get?_insert_self _ _ _
  rw [resolve, hget]

/-- **Options that differ by delegates**: what the second leaves to a kind, the first may leave to
the delegate of that kind. -/
structure Delegates (o o' : Options) : Prop where
  settings : o.toSettings = o'.toSettings
  resolve : ∀ typeName, o.resolve typeName = o'.resolve typeName ∨
    ∃ kind, o.resolve typeName = some (.inl kind.delegate) ∧
      o'.resolve typeName = some (.inr kind)

theorem delegates_withDelegates (o : Options) (kinds : List Kind) :
    (o.withDelegates kinds).Delegates (o.withoutHandlers kinds) := by
  refine ⟨by rw [withDelegates_eq, withoutHandlers], fun typeName => ?_⟩
  simp only [Options.resolve, get?_withoutHandlers]
  by_cases h : typeName ∈ kinds.map Kind.name
  · obtain ⟨kind, hkind, rfl⟩ := List.mem_map.1 h
    rw [get?_withDelegates_of_mem o hkind, if_pos h, kind.ofName?_name]
    exact .inr ⟨kind, rfl, rfl⟩
  · rw [get?_withDelegates_of_not_mem o h, if_neg h]
    exact .inl rfl

end Options

/-! ## One node, and those below it -/

namespace Description

variable {o o' : Options} {other other' : Description → Conversion (Option Json)}

/-- **A delegate is not noticed at a node**, over the same conversions below. -/
theorem convertNode_delegates (h : o.Delegates o') (d : Description) (below : Below) :
    convertNode o other d below = convertNode o' other d below := by
  rcases h.resolve d.typeName with hsame | ⟨kind, hhandler, hkind⟩
  · unfold convertNode
    rw [hsame, h.settings]
  · rw [convertNode_of_handler hhandler, convertNode_of_kind hkind, Kind.run_delegate, h.settings]

/-- A description is converted alike by two choices of options. -/
def SameAt (o o' : Options) (other other' : Description → Conversion (Option Json))
    (d : Description) : Prop :=
  d.convertWith o other = d.convertWith o' other'

theorem convertItems_congr : ∀ {ds : List Description}, (∀ d ∈ ds, SameAt o o' other other' d) →
    convertItems o other ds = convertItems o' other' ds
  | [], _ => rfl
  | d :: ds, h => by
    rw [List.forall_mem_cons] at h
    rw [convertItems, convertItems, h.1, convertItems_congr h.2]

theorem convertChildren_congr : ∀ {cs : List (String × Description)},
    (∀ c ∈ cs, SameAt o o' other other' c.2) →
      convertChildren o other cs = convertChildren o' other' cs
  | [], _ => rfl
  | (key, d) :: cs, h => by
    rw [List.forall_mem_cons] at h
    rw [convertChildren, convertChildren, h.1, convertChildren_congr h.2]

theorem convertPatterns_congr : ∀ {ps : List (PatternRule Description)},
    (∀ p ∈ ps, SameAt o o' other other' p.rule) →
      convertPatterns o other ps = convertPatterns o' other' ps
  | [], _ => rfl
  | ⟨regex, schema, rule⟩ :: ps, h => by
    rw [List.forall_mem_cons] at h
    rw [convertPatterns, convertPatterns, h.1, convertPatterns_congr h.2]

theorem convertBranches_congr : ∀ {bs : List (Alternative Description)},
    (∀ d, Alternative.schema d ∈ bs → SameAt o o' other other' d) →
      convertBranches o other bs = convertBranches o' other' bs
  | [], _ => rfl
  | .conditional _ :: _, _ => by
    rw [convertBranches, convertBranches]
  | .schema d :: bs, h => by
    rw [convertBranches, convertBranches, h d List.mem_cons_self,
      convertBranches_congr fun e he => h e (List.mem_cons_of_mem _ he)]

/-- The conversions below a node are the same when those of the descriptions there are. -/
theorem conversionsBelow_congr {d : Description}
    (h : ∀ e ∈ d.directlyBelow, SameAt o o' other other' e) :
    d.conversionsBelow o other = d.conversionsBelow o' other' := by
  obtain ⟨traits, items, orderedItems, children, patterns, alternatives⟩ := d
  simp only [mem_directlyBelow] at h
  simp only [conversionsBelow, Below.mk.injEq]
  refine ⟨?_, ?_, ?_, ?_, ?_⟩
  · cases items with
    | none => rfl
    | some ds => exact convertItems_congr fun e he => h e (.inl ⟨ds, rfl, he⟩)
  · cases orderedItems with
    | none => rfl
    | some ds => exact convertItems_congr fun e he => h e (.inr (.inl ⟨ds, rfl, he⟩))
  · cases children with
    | none => rfl
    | some cs =>
      exact congrArg (some <$> ·) (convertChildren_congr fun c hmem =>
        h c.2 (.inr (.inr (.inl ⟨cs, c.1, rfl, hmem⟩))))
  · cases patterns with
    | none => rfl
    | some ps =>
      exact congrArg (some <$> ·) (convertPatterns_congr fun p hmem =>
        h p.rule (.inr (.inr (.inr (.inl ⟨ps, p, rfl, hmem, rfl⟩)))))
  · cases alternatives with
    | none => rfl
    | some bs =>
      exact convertBranches_congr fun e he => h e (.inr (.inr (.inr (.inr ⟨bs, rfl, he⟩))))

/-! ## Whole conversions -/

theorem convertWith_delegates (h : o.Delegates o') (d : Description) :
    d.convertWith o other = d.convertWith o' other := by
  induction d using Description.induction with
  | node d ih =>
    rw [convertWith_eq, convertWith_eq, conversionsBelow_congr ih, convertNode_delegates h]

theorem convertNested_delegates (h : o.Delegates o')
    (bottom : Description → Conversion (Option Json)) :
    ∀ n : Nat, convertNested o bottom n = convertNested o' bottom n
  | 0 => rfl
  | n + 1 => by
    funext d
    rw [convertNested, convertNested, convertNested_delegates h bottom n]
    exact convertWith_delegates h d

/-- **Delegates are not noticed by a conversion.** -/
theorem convert_delegates (h : o.Delegates o') (hnesting : o.nesting = o'.nesting)
    (htooDeep : o.tooDeep = o'.tooDeep) (d : Description) : d.convert o = d.convert o' := by
  rw [convert, convert, Options.elsewhere, Options.elsewhere, hnesting, htooDeep,
    convertNested_delegates h]
  exact convertWith_delegates h d

/-- **A handler comes before the kind of the same name**: it converts every node of its type, with
the conversions below and elsewhere by the same options. -/
theorem convertWith_withHandler (o : Options) (handler : Handler)
    (other : Description → Conversion (Option Json)) {typeName : String} {d : Description}
    (h : d.typeName = typeName) :
    d.convertWith (o.withHandler typeName handler) other =
      Conversion.placed (o.path? d)
        ((handler o.toSettings d (d.commonFragment d.leadingFragment)).run
          (fun kind f => kind.convert o.toSettings d.toTraits
            (d.conversionsBelow (o.withHandler typeName handler) other) f) other) := by
  have hresolve : (o.withHandler typeName handler).resolve d.typeName = some (.inl handler) := by
    rw [h]
    exact o.resolve_withHandler typeName handler
  rw [convertWith_eq, convertNode_of_handler hresolve, Options.extraction?_eq_path?]
  rfl

end Description

/-! ## Sessions -/

namespace Converter

/-- What the calls of a session give, one after the other. -/
def answers (c : Converter) : List Call → List (Except ConvertError (Option Json))
  | [] => []
  | x :: calls => (c.call x).1 :: (c.call x).2.answers calls

/-- **A session is its conversions**: options that convert every description alike give the same
answers and leave the same registry. -/
theorem answers_congr {o o' : Options} (h : ∀ d : Description, d.convert o = d.convert o') :
    ∀ (calls : List Call) (r : Registry),
      answers ⟨o, r⟩ calls = answers ⟨o', r⟩ calls ∧
        (callAll ⟨o, r⟩ calls).registry = (callAll ⟨o', r⟩ calls).registry
  | [], r => ⟨rfl, rfl⟩
  | x :: calls, r => by
    rw [callAll_cons, callAll_cons, answers, answers]
    cases hx : x.read with
    | error e =>
      rw [call_of_refused hx, call_of_refused hx]
      obtain ⟨hanswers, hregistry⟩ := answers_congr h calls r
      exact ⟨congrArg _ hanswers, hregistry⟩
    | ok d =>
      rw [call_of_read hx, call_of_read hx, convertDescription_eq, convertDescription_eq]
      dsimp only
      rw [h d]
      obtain ⟨hanswers, hregistry⟩ := answers_congr h calls ((d.convert o').run r).2
      exact ⟨congrArg _ hanswers, hregistry⟩

/-- **Handlers come before kinds, and a delegate is not noticed.**  Give each of some kinds a handler
for its own type that only hands the node on to it: from every registry, every session has the
answers, and leaves the registry, that it has without handlers for these types.  Where there were
none, that is with the options as they are.  What does the same as the kind does so at every depth,
for there a handler converts every node of its type, in place of the kind if there is one. -/
theorem answers_withDelegates (o : Options) (kinds : List Kind) (r : Registry)
    (calls : List Call) :
    let delegated : Converter := ⟨o.withDelegates kinds, r⟩
    let plain : Converter := ⟨o.withoutHandlers kinds, r⟩
    delegated.answers calls = plain.answers calls ∧
    (delegated.callAll calls).registry = (plain.callAll calls).registry ∧
    ((∀ kind ∈ kinds, Members.get? o.handlers kind.name = none) → o.withoutHandlers kinds = o) ∧
    ∀ (typeName : String) (handler : Handler) (other : Description → Conversion (Option Json))
      (d : Description), d.typeName = typeName →
      d.convertWith (o.withHandler typeName handler) other =
        Conversion.placed (o.path? d)
          ((handler o.toSettings d (d.commonFragment d.leadingFragment)).run
            (fun kind f => kind.convert o.toSettings d.toTraits
              (d.conversionsBelow (o.withHandler typeName handler) other) f) other) := by
  intro delegated plain
  have hsame : ∀ d : Description, d.convert (o.withDelegates kinds) =
      d.convert (o.withoutHandlers kinds) := by
    refine Description.convert_delegates (o.delegates_withDelegates kinds) ?_ ?_ <;>
      rw [Options.withDelegates_eq, Options.withoutHandlers]
  obtain ⟨hanswers, hregistry⟩ := answers_congr hsame calls r
  exact ⟨hanswers, hregistry, Options.withoutHandlers_of_absent,
    fun _ handler other _ => Description.convertWith_withHandler o handler other⟩

/-- An object with a named string and a child of a type of its own, whose handler converts a string
from elsewhere; then a description of an unknown type. -/
theorem answers_withDelegates_nested :
    let nesting : Handler := fun _ _ f => .convert (.ofType "string") (.onResult fun result =>
      .finish (some (f.insertOption "not" result)))
    let o := Options.withHandler { extract := true } "any" nesting
    let kinds : List Kind := [.object, .string]
    let named := (Description.ofType "string").withMeta [("extract", .string "A")]
    let node := ((Description.ofType "object").withChild "a" named).withChild "b" (.ofType "any")
    let calls : List Call := [.node node, .node (.ofType "symbol")]
    (∀ kind ∈ kinds, Members.get? o.handlers kind.name = none) ∧
      o.withoutHandlers kinds = o ∧
      answers ⟨o.withDelegates kinds, {}⟩ calls = answers ⟨o, {}⟩ calls ∧
      answers ⟨o, {}⟩ calls =
        [.ok (some (.object [("type", .string "object"),
          ("properties", .object [("a", .reference "/A"),
            ("b", .object [("not", .object [("type", .string "string")])])])])),
         .error (.unknownType "symbol")] ∧
      (callAll ⟨o.withDelegates kinds, {}⟩ calls).registry.paths = ["/A"] ∧
      (((Description.ofType "string").convertWith (o.withHandler "string" fun _ _ _ => .finish none)
        fun _ => pure none).run {}).1 = .ok none := by
  intro nesting o kinds named node calls
  have hfree : ∀ kind ∈ kinds, Members.get? o.handlers kind.name = none := by
    change ∀ kind ∈ [Kind.object, Kind.string], Members.get? o.handlers kind.name = none
    simp only [List.forall_mem_cons]
    exact ⟨rfl, rfl, fun _ h => absurd h List.not_mem_nil⟩
  obtain ⟨hanswers, hregistry, hplain, hhandler⟩ := answers_withDelegates o kinds {} calls
  have hsame := hplain hfree
  rw [hsame] at hanswers hregistry
  refine ⟨hfree, hsame, hanswers, rfl, ?_, ?_⟩
  · rw [hregistry]
    rfl
  · rw [hhandler "string" (fun _ _ _ => .finish none) (fun _ => pure none) (.ofType "string") rfl]
    rfl

end Converter
end Schemata
