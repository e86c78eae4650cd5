import Schemata.Proofs.Folds
import Schemata.Proofs.Members
import Schemata.Proofs.Node
/-!
# Own keywords — what a kind writes

Apart from alternations, whose combinator the metadata may name, every kind has keywords of its own,
and all it does to a fragment is to insert some of them (`Kind.convert_gains`).  Where they come
from does not matter to that: rules, flags, what the descriptions below became.

A number compares with the bounds that stand.  The other kinds insert the same keywords into every
fragment, and fail on every fragment or on none (`Kind.writes`).  One rule does so, therefore rules one
after the other do, and so do the parts of a kind in sequence.
-/
namespace Schemata

/-- The keywords of a kind; the combinator of an alternation is none of them. -/
def Kind.ownKeywords : Kind → List String
  | string => ["type", "minLength", "maxLength", "pattern", "format"]
  | number =>
    ["type", "minimum", "maximum", "exclusiveMinimum", "exclusiveMaximum", "multipleOf", "format"]
  | boolean => ["type"]
  | binary => ["type", "format", "minLength", "maxLength"]
  | date =>
    ["type", "format", "formatMinimum", "formatMaximum", "formatExclusiveMinimum",
     "formatExclusiveMaximum"]
  | array => ["type", "minItems", "maxItems", "uniqueItems", "items", "additionalItems"]
  | object =>
    ["type", "additionalProperties", "minProperties", "maxProperties", "properties",
     "patternProperties", "dependencies", "required"]
  | alternatives => []

/-! ## Members with given names -/

namespace Members

def Among (names : List String) (ms : Members Json) : Prop := ∀ m ∈ ms, m.1 ∈ names

variable {names more : List String} {ms ns : Members Json}

theorem among_nil (names : List String) : Among names [] := fun _ hm => absurd hm List.not_mem_nil

theorem Among.cons (h : Among names ms) {name : String} (hn : name ∈ names) (value : Json) :
    Among names ((name, value) :: ms) :=
  List.forall_mem_cons.2 ⟨hn, h⟩

theorem among_single {name : String} (hn : name ∈ names) (value : Json) :
    Among names [(name, value)] :=
  (among_nil names).cons hn value

theorem Among.append (h : Among names ms) (h' : Among names ns) : Among names (ms ++ ns) :=
  List.forall_mem_append.2 ⟨h, h'⟩

theorem Among.mono (h : Among names ms) (hsub : names ⊆ more) : Among more ms :=
  fun m hm => hsub (h m hm)

end Members

open Members (Among among_nil among_single)

/-! ## Fragments that gain keywords -/

/-- **A fragment with some keywords inserted**, all of them among these. -/
def Fragment.Gains (names : List String) (f g : Fragment) : Prop :=
  ∃ ms, Among names ms ∧ g = f.insertAll ms

namespace Fragment

variable {names more : List String} {f g h : Fragment}

theorem insertAll_append (f : Fragment) (ms ns : Members Json) :
    f.insertAll (ms ++ ns) = (f.insertAll ms).insertAll ns :=
  List.foldl_append

theorem gains_refl (names : List String) (f : Fragment) : Gains names f f :=
  ⟨[], among_nil names, rfl⟩

theorem gains_insert {name : String} (hn : name ∈ names) (f : Fragment) (value : Json) :
    Gains names f (f.insert name value) :=
  ⟨[(name, value)], among_single hn value, rfl⟩

theorem gains_insertAll {ms : Members Json} (hms : Among names ms) (f : Fragment) :
    Gains names f (f.insertAll ms) :=
  ⟨ms, hms, rfl⟩

theorem Gains.trans (hfg : Gains names f g) (hgh : Gains names g h) : Gains names f h := by
  obtain ⟨ms, hms, rfl⟩ := hfg
  obtain ⟨ns, hns, rfl⟩ := hgh
  exact ⟨ms ++ ns, hms.append hns, (f.insertAll_append ms ns).symm⟩

end Fragment

/-! ## The same keywords for every fragment -/

/-- Members with names among these. -/
structure Own (names : List String) where
  members : Members Json
  among : Among names members

/-- **Steps that insert the same keywords into every fragment**: which they are, and how the steps end,
does not depend on the fragment. -/
def Writes {M : Type → Type} [Monad M] (names : List String) (apply : Fragment → M Fragment) :
    Prop :=
  ∃ own : M (Own names), ∀ f, apply f = (fun ms => f.insertAll ms.members) <$> own

section Writes

variable {M : Type → Type} [Monad M] [LawfulMonad M] {names more : List String} {α : Type}
  {apply next : Fragment → M Fragment}

theorem writes_insertAll {ms : Members Json} (hms : Among names ms) :
    Writes names fun f => (pure (f.insertAll ms) : M Fragment) :=
  ⟨pure ⟨ms, hms⟩, fun f => by rw [map_pure]⟩

theorem writes_pure (names : List String) : Writes names (pure : Fragment → M Fragment) :=
  writes_insertAll (among_nil names)

theorem writes_insert {name : String} (hn : name ∈ names) (value : Json) :
    Writes names fun f => (pure (f.insert name value) : M Fragment) :=
  writes_insertAll (among_single hn value)

theorem writes_insertOption {name : String} (hn : name ∈ names) (value? : Option Json) :
    Writes names fun f => (pure (f.insertOption name value?) : M Fragment) := by
  cases value? with
  | none => exact writes_pure names
  | some value => exact writes_insert hn value

theorem Writes.mono (h : Writes names apply) (hsub : names ⊆ more) : Writes more apply := by
  obtain ⟨own, hown⟩ := h
  refine ⟨(fun ms => ⟨ms.members, ms.among.mono hsub⟩) <$> own, fun f => ?_⟩
  rw [hown, Functor.map_map]

/-- One after the other. -/
theorem Writes.bind (h : Writes names apply) (hnext : Writes names next) :
    Writes names fun f => apply f >>= next := by
  obtain ⟨own, hown⟩ := h
  obtain ⟨own', hown'⟩ := hnext
  refine ⟨own >>= fun ms =>
    (fun ns => ⟨ms.members ++ ns.members, ms.among.append ns.among⟩) <$> own', fun f => ?_⟩
  simp only [hown, hown', bind_map_left, map_bind, Functor.map_map, Fragment.insertAll_append]

/-- What comes first may give anything, as long as it does not look at the fragment. -/
theorem writes_after (c : M α) {next : α → Fragment → M Fragment}
    (hnext : ∀ a, Writes names (next a)) : Writes names fun f => c >>= fun a => next a f := by
  choose own hown using hnext
  refine ⟨c >>= own, fun f => ?_⟩
  rw [map_bind]
  exact bind_congr fun a => hown a f

theorem Writes.insert (h : Writes names apply) {name : String} (hn : name ∈ names) (value : Json) :
    Writes names fun f => apply (f.insert name value) := by
  have hboth := (writes_insert hn value).bind h
  simp only [pure_bind] at hboth
  exact hboth

theorem Writes.insertOption (h : Writes names apply) {name : String} (hn : name ∈ names)
    (value? : Option Json) : Writes names fun f => apply (f.insertOption name value?) := by
  have hboth := (writes_insertOption hn value?).bind h
  simp only [pure_bind] at hboth
  exact hboth

/-- **Steps for the items of a list** insert the same keywords when the step for each item does. -/
theorem writes_foldlM {step : Fragment → α → M Fragment}
    (hstep : ∀ a, Writes names fun f => step f a) :
    ∀ items : List α, Writes names fun f => items.foldlM step f
  | [] => writes_pure names
  | a :: items => (hstep a).bind (writes_foldlM hstep items)

end Writes

section Outcomes

variable {names : List String} {α : Type} {apply : Fragment → Except ConvertError Fragment}

theorem writes_error (names : List String) (e : ConvertError) :
    Writes names fun _ => (.error e : Except ConvertError Fragment) :=
  ⟨.error e, fun _ => rfl⟩

theorem writes_map {x : Except ConvertError α} {g : α → Members Json}
    (hg : ∀ a, x = .ok a → Among names (g a)) :
    Writes names fun f => x.map fun a => f.insertAll (g a) := by
  cases x with
  | error e => exact writes_error names e
  | ok a => exact writes_insertAll (hg a rfl)

/-- They insert the same members, or fail with the same error. -/
theorem Writes.cases (h : Writes names apply) :
    (∃ e, ∀ f, apply f = .error e) ∨
      ∃ ms, Among names ms ∧ ∀ f, apply f = .ok (f.insertAll ms) := by
  obtain ⟨e | ⟨ms, hms⟩, hown⟩ := h
  · exact .inl ⟨e, hown⟩
  · exact .inr ⟨ms, hms, hown⟩

theorem Writes.gains (h : Writes names apply) {f g : Fragment} (hg : apply f = .ok g) :
    f.Gains names g := by
  rcases h.cases with ⟨e, hown⟩ | ⟨ms, hms, hown⟩ <;> rw [hown] at hg <;> cases hg
  exact Fragment.gains_insertAll hms f

theorem Writes.lift (h : Writes names apply) :
    Writes names fun f => Conversion.lift (apply f) := by
  rcases h.cases with ⟨e, hown⟩ | ⟨ms, hms, hown⟩ <;> simp only [hown]
  · exact ⟨Conversion.fail e, fun _ => rfl⟩
  · exact writes_insertAll hms

end Outcomes

/-! ## Rules -/

namespace Keywords

theorem writes_skipRule (names : List String) (settings : Settings) (typeName : String)
    (rule : Rule) : Writes names fun f => skipRule settings typeName f rule :=
  writes_map fun _ _ => among_nil names

/-- A limit is written into every fragment, or the rule is another one. -/
theorem applyLimit?_cases (limits : LimitNames) (typeName : String) (rule : Rule) :
    (∀ f, applyLimit? limits typeName f rule = none) ∨
      ∃ apply, Writes [limits.least, limits.most] apply ∧
        ∀ f, applyLimit? limits typeName f rule = some (apply f) := by
  have hleast : limits.least ∈ [limits.least, limits.most] := List.mem_cons_self
  have hmost : limits.most ∈ [limits.least, limits.most] :=
    List.mem_cons_of_mem _ List.mem_cons_self
  by_cases hmin : rule.name = "min"
  · refine .inr ⟨_, ?_, fun f => by rw [applyLimit?, if_pos hmin]⟩
    exact writes_map (g := fun n => [(limits.least, n)]) fun n _ => among_single hleast n
  · by_cases hmax : rule.name = "max"
    · refine .inr ⟨_, ?_, fun f => by rw [applyLimit?, if_neg hmin, if_pos hmax]⟩
      exact writes_map (g := fun n => [(limits.most, n)]) fun n _ => among_single hmost n
    · by_cases hlength : rule.name = "length"
      · refine .inr ⟨_, ?_, fun f => by
          rw [applyLimit?, if_neg hmin, if_neg hmax, if_pos hlength]⟩
        exact writes_map (g := fun n => [(limits.least, n), (limits.most, n)])
          fun n _ => (among_single hmost n).cons hleast n
      · exact .inl fun f => by rw [applyLimit?, if_neg hmin, if_neg hmax, if_neg hlength]

theorem writes_applyLimit {names : List String} {limits : LimitNames}
    (hsub : [limits.least, limits.most] ⊆ names) (settings : Settings) (typeName : String)
    (rule : Rule) : Writes names fun f => applyLimit settings limits typeName f rule := by
  unfold applyLimit
  rcases applyLimit?_cases limits typeName rule with hnone | ⟨apply, happly, hsome⟩
  · simp only [hnone]
    exact writes_skipRule names settings typeName rule
  · simp only [hsome]
    exact happly.mono hsub

theorem mem_of_look? {settings : Settings} {flags : Flags} {rule : Rule}
    {x : Except ConvertError (String × Json)} (h : look? settings flags rule = some x)
    {m : String × Json} (hm : x = .ok m) : m.1 ∈ ["pattern", "format"] := by
  unfold look? at h
  split at h <;> cases h
  case h_13 | h_14 =>
    obtain ⟨text, -, rfl⟩ := exists_ok_of_map hm
    exact List.mem_cons_self
  all_goals
    cases hm
    simp [pattern, format]

theorem writes_applyStringRule (settings : Settings) (flags : Flags) (rule : Rule) :
    Writes Kind.string.ownKeywords fun f => applyStringRule settings flags f rule := by
  unfold applyStringRule
  rcases applyLimit?_cases lengthLimits "string" rule with hnone | ⟨apply, happly, hsome⟩
  · simp only [hnone]
    cases hlook : look? settings flags rule with
    | none => exact writes_skipRule _ settings "string" rule
    | some x =>
      refine writes_map (g := fun m => [m]) fun m hm => among_single ?_ m.2
      exact (by decide : ["pattern", "format"] ⊆ Kind.string.ownKeywords) (mem_of_look? hlook hm)
  · simp only [hsome]
    exact happly.mono (by decide)

theorem mem_of_dateKeyword? {rule keyword : String} (h : dateKeyword? rule = some keyword) :
    keyword ∈ Kind.date.ownKeywords := by
  unfold dateKeyword? at h
  split at h <;> cases h <;> decide

theorem writes_applyDateRule (settings : Settings) (rule : Rule) :
    Writes Kind.date.ownKeywords fun f => applyDateRule settings f rule := by
  unfold applyDateRule
  cases hk : dateKeyword? rule.name with
  | none => exact writes_skipRule _ settings "date" rule
  | some keyword =>
    exact writes_map (g := fun limit => [(keyword, limit)])
      fun limit _ => among_single (mem_of_dateKeyword? hk) limit

/-- The keywords of an array that do not come from its items. -/
def arrayTraitKeywords : List String := ["type", "minItems", "maxItems", "uniqueItems"]

theorem writes_applyArrayRule (settings : Settings) (rule : Rule) :
    Writes arrayTraitKeywords fun f => applyArrayRule settings f rule := by
  unfold applyArrayRule
  rcases applyLimit?_cases itemLimits "array" rule with hnone | ⟨apply, happly, hsome⟩
  · simp only [hnone]
    split
    · split
      · exact writes_error _ _
      · split
        · exact writes_error _ _
        · exact writes_insert (M := Except ConvertError) (by decide) _
    · exact writes_skipRule _ settings "array" rule
  · simp only [hsome]
    exact happly.mono (by decide)

/-! ## Kinds without descriptions below -/

theorem writes_applyString (settings : Settings) (t : Traits) :
    Writes Kind.string.ownKeywords (applyString settings t) := by
  unfold applyString
  cases refusedStringFlag? t.flags with
  | some construct => exact writes_error _ _
  | none =>
    exact (writes_foldlM (writes_applyStringRule settings t.flags) t.rules).insert (by decide) _

theorem writes_applyBoolean (settings : Settings) (t : Traits) :
    Writes Kind.boolean.ownKeywords (applyBoolean settings t) := by
  unfold applyBoolean
  split
  · exact writes_error _ _
  · split
    · exact writes_error _ _
    · exact writes_after _ fun _ => writes_insert (by decide) _

theorem writes_applyBinary (settings : Settings) (t : Traits) :
    Writes Kind.binary.ownKeywords (applyBinary settings t) := by
  unfold applyBinary
  refine writes_after _ fun name => ?_
  have hrule : ∀ rule, Writes Kind.binary.ownKeywords
      fun f => applyLimit settings lengthLimits "binary" f rule :=
    writes_applyLimit (by decide) settings "binary"
  have hrules := writes_foldlM hrule t.rules
  exact (hrules.insert (by decide) _).insert (by decide) _

theorem writes_applyDate (settings : Settings) (t : Traits) :
    Writes Kind.date.ownKeywords (applyDate settings t) := by
  unfold applyDate
  cases t.flags.timestamp with
  | true => exact writes_error _ _
  | false =>
    have hrules := writes_foldlM (writes_applyDateRule settings) t.rules
    exact (hrules.insert (by decide) _).insert (by decide) _

/-! ## Arrays and objects -/

theorem writes_applyArrayTraits (settings : Settings) (t : Traits) :
    Writes arrayTraitKeywords (applyArrayTraits settings t) := by
  unfold applyArrayTraits
  cases t.flags.sparse with
  | true => exact writes_error _ _
  | false => exact (writes_foldlM (writes_applyArrayRule settings) t.rules).insert (by decide) _

theorem writes_insertItems (anywhere byPlace : List Json) :
    Writes ["items", "additionalItems"] fun f =>
      (pure (insertItems anywhere byPlace f) : Conversion Fragment) := by
  unfold insertItems
  split
  · exact writes_insertOption (by decide) _
  · exact (writes_insertOption (by decide) _).insert (by decide) _

theorem writes_applyArray (settings : Settings) (t : Traits) (below : Below) :
    Writes Kind.array.ownKeywords (applyArray settings t below) := by
  refine ((writes_applyArrayTraits settings t).lift.mono (by decide)).bind ?_
  refine writes_after below.items fun anywhere => ?_
  refine writes_after below.orderedItems fun byPlace => ?_
  exact (writes_insertItems anywhere byPlace).mono (by decide)

/-- The keywords of an object that do not come from its children, patterns and dependencies. -/
def objectTraitKeywords : List String :=
  ["type", "additionalProperties", "minProperties", "maxProperties"]

theorem writes_applyObjectTraits (settings : Settings) (t : Traits) :
    Writes objectTraitKeywords (applyObjectTraits settings t) := by
  have hrule : ∀ rule, Writes objectTraitKeywords
      fun f => applyLimit settings propertyLimits "object" f rule :=
    writes_applyLimit (by decide) settings "object"
  have hrules := writes_foldlM hrule t.rules
  exact (hrules.insertOption (by decide) _).insert (by decide) _

theorem writes_applyDependencies (ds? : Option (List Dependency)) :
    Writes ["dependencies"] (applyDependencies ds?) := by
  cases ds? with
  | none => exact writes_pure (M := Except ConvertError) _
  | some ds =>
    exact writes_after (ds.foldlM addDependency []) fun _ => writes_insert List.mem_cons_self _

theorem writes_applyObject (settings : Settings) (t : Traits) (below : Below) :
    Writes Kind.object.ownKeywords (applyObject settings t below) := by
  refine ((writes_applyObjectTraits settings t).lift.mono (by decide)).bind ?_
  refine writes_after below.children fun children => ?_
  have hrequired : "required" ∈ Kind.object.ownKeywords := by decide
  have hpatternProperties : "patternProperties" ∈ Kind.object.ownKeywords := by decide
  have hend := ((writes_applyDependencies t.dependencies).lift.mono (by decide)).bind
    (writes_insertOption hrequired (required? ((children.map requiredKeys).getD [])))
  have hpatterns := writes_after below.patterns fun patterns =>
    hend.insertOption hpatternProperties (patterns.map fun ps => .object (Members.ofList ps))
  exact hpatterns.insertOption (by decide) _

end Keywords

/-- The kinds that do not look at the fragment. -/
def Kind.overlaying : List Kind := [string, boolean, binary, date, array, object]

open Keywords in
/-- **Such a kind inserts the same keywords into every fragment.** -/
theorem Kind.writes {kind : Kind} (hkind : kind ∈ overlaying) (settings : Settings) (t : Traits)
    (below : Below) : Writes kind.ownKeywords (kind.convert settings t below) := by
  cases kind with
  | string => exact (writes_applyString settings t).lift
  | boolean => exact (writes_applyBoolean settings t).lift
  | binary => exact (writes_applyBinary settings t).lift
  | date => exact (writes_applyDate settings t).lift
  | array => exact writes_applyArray settings t below
  | object => exact writes_applyObject settings t below
  | number | alternatives => exact absurd hkind (by decide)

/-! ## Numbers -/

namespace Keywords

open Fragment (Gains gains_refl gains_insert gains_insertAll)

theorem gains_tighten {names : List String} {keyword : String} (hk : keyword ∈ names)
    (f : Fragment) (edge : Nat) (side : Side) : Gains names f (tighten f keyword edge side) := by
  unfold tighten
  split
  · exact gains_refl names f
  · exact gains_insert hk f _

theorem gains_impliedBy? {rule : String} {apply : Fragment → Fragment}
    (h : impliedBy? rule = some apply) (f : Fragment) :
    Gains Kind.number.ownKeywords f (apply f) := by
  unfold impliedBy? at h
  split at h <;> cases h
  · exact gains_insert (by decide) f _
  · exact (gains_insert (by decide) f _).trans (gains_insert (by decide) _ _)
  · exact gains_tighten (by decide) f 0 .lower
  · exact gains_tighten (by decide) f 0 .upper
  · exact ((gains_insert (by decide) f _).trans (gains_tighten (by decide) _ 0 .lower)).trans
      (gains_tighten (by decide) _ largestPort .upper)

theorem mem_of_boundKeyword? {rule keyword : String} (h : boundKeyword? rule = some keyword) :
    keyword ∈ Kind.number.ownKeywords := by
  unfold boundKeyword? at h
  split at h <;> cases h <;> decide

section Rules

variable {settings : Settings} {rule : Rule} {f g : Fragment}

theorem numberArg_ok {typeName : String} {value : Json} (h : numberArg typeName rule = .ok value) :
    ∃ a, rule.arg = .number a ∧ value = .number a := by
  unfold numberArg at h
  split at h
  · rename_i a ha
    cases h
    exact ⟨a, ha, rfl⟩
  · cases h

theorem skipRule_ok {typeName : String} (h : skipRule settings typeName f rule = .ok g) :
    g = f := by
  obtain ⟨_, -, rfl⟩ := exists_ok_of_map h
  rfl

/-- **One rule of a number**, if it is accepted, sets a limit, implies something or is skipped. -/
theorem applyNumberRule_cases (h : applyNumberRule settings f rule = .ok g) :
    (∃ keyword a, boundKeyword? rule.name = some keyword ∧ rule.arg = .number a ∧
      g = f.insert keyword (.number a)) ∨
    (∃ apply, impliedBy? rule.name = some apply ∧ g = apply f) ∨
    (boundKeyword? rule.name = none ∧ impliedBy? rule.name = none ∧ g = f) := by
  unfold applyNumberRule at h
  cases hbound : boundKeyword? rule.name with
  | some keyword =>
    rw [hbound] at h
    obtain ⟨n, hn, rfl⟩ := exists_ok_of_map h
    obtain ⟨a, ha, rfl⟩ := numberArg_ok hn
    exact .inl ⟨keyword, a, rfl, ha, rfl⟩
  | none =>
    rw [hbound] at h
    cases himplied : impliedBy? rule.name with
    | some apply =>
      rw [himplied] at h
      cases h
      exact .inr (.inl ⟨apply, rfl, rfl⟩)
    | none =>
      rw [himplied] at h
      exact .inr (.inr ⟨rfl, rfl, skipRule_ok h⟩)

/-- One rule inserts keywords of a number. -/
theorem gains_applyNumberRule (h : applyNumberRule settings f rule = .ok g) :
    Gains Kind.number.ownKeywords f g := by
  rcases applyNumberRule_cases h with ⟨keyword, a, hk, -, rfl⟩ | ⟨apply, hi, rfl⟩ | ⟨-, -, hg⟩
  · exact gains_insert (mem_of_boundKeyword? hk) f _
  · exact gains_impliedBy? hi f
  · rw [hg]
    exact gains_refl _ f

theorem gains_applyNumberRules : ∀ {rules : List Rule} {f : Fragment},
    rules.foldlM (applyNumberRule settings) f = .ok g → Gains Kind.number.ownKeywords f g
  | [], _, h => by
    cases h
    exact gains_refl _ g
  | rule :: rules, f, h => by
    obtain ⟨f₁, hrule, h⟩ := foldlM_cons_ok h
    exact (gains_applyNumberRule hrule).trans (gains_applyNumberRules h)

end Rules

theorem gains_applyNumber {settings : Settings} {t : Traits} {f g : Fragment}
    (h : applyNumber settings t f = .ok g) : Gains Kind.number.ownKeywords f g :=
  (gains_insert (by decide) f _).trans (gains_applyNumberRules h)

end Keywords

/-! ## Conversions with given names -/

namespace Conversion

variable {α : Type}

/-- A conversion whose results, if it has any, have a property. -/
def Yields (Q : α → Prop) (c : Conversion α) : Prop := ∀ r a r', c.run r = (.ok a, r') → Q a

theorem yields_lift {Q : α → Prop} {x : Except ConvertError α} (h : ∀ a, x = .ok a → Q a) :
    (lift x).Yields Q := by
  intro r a r' hrun
  obtain ⟨ha, -⟩ := eq_of_lift_ok hrun
  exact h a ha

end Conversion

theorem Writes.yields {names : List String} {apply : Fragment → Conversion Fragment}
    (h : Writes names apply) (f : Fragment) : (apply f).Yields (f.Gains names) := by
  obtain ⟨own, hown⟩ := h
  intro r g r' hrun
  rw [hown] at hrun
  obtain ⟨ms, -, rfl⟩ := Conversion.exists_of_map_ok hrun
  exact Fragment.gains_insertAll ms.among f

/-- **A kind inserts its own keywords** and does nothing else, unless it is an alternation. -/
theorem Kind.convert_gains {kind : Kind} (hkind : kind ≠ .alternatives) (settings : Settings)
    (t : Traits) (below : Below) (f : Fragment) :
    (kind.convert settings t below f).Yields (f.Gains kind.ownKeywords) := by
  cases kind with
  | number => exact Conversion.yields_lift fun _ => Keywords.gains_applyNumber
  | alternatives => exact absurd rfl hkind
  | string | boolean | binary | date | array | object =>
    exact (Kind.writes (by decide) settings t below).yields f

end Schemata
