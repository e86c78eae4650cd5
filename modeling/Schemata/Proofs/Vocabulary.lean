import Schemata.Conversion.Handler
/-!
# Vocabulary — the rules that a kind knows

A kind knows rules by their names.  A rule that it knows is translated, or refused for its argument,
and of the settings only the format of IP addresses has a say in that; every other rule is unknown,
and skipped or refused as the settings say.  `Kind.TakesRules` states this of one rule, and the
function with which each kind takes its rules is shown to have it.
-/
namespace Schemata

/-! ## Outcomes that are no refusals -/

/-- There is a result. -/
def Accepted {α : Type} (x : Except ConvertError α) : Prop := ∃ a, x = .ok a

section Accepted

variable {α β : Type}

@[simp] theorem accepted_ok (a : α) : Accepted (.ok a) := ⟨a, rfl⟩

@[simp] theorem not_accepted_error (e : ConvertError) :
    ¬Accepted (.error e : Except ConvertError α) := by
  rintro ⟨a, h⟩
  cases h

theorem not_accepted_iff (x : Except ConvertError α) : ¬Accepted x ↔ ∃ e, x = .error e := by
  cases x with
  | error e => exact iff_of_true (not_accepted_error e) ⟨e, rfl⟩
  | ok a => simp

@[simp] theorem accepted_map (g : α → β) (x : Except ConvertError α) :
    Accepted (x.map g) ↔ Accepted x := by
  cases x with
  | error e => exact iff_of_false (not_accepted_error e) (not_accepted_error e)
  | ok a => exact iff_of_true (accepted_ok _) (accepted_ok a)

/-- One step after the other is accepted when both are, if what the second does with a result makes
no difference to that. -/
theorem accepted_bind {x : Except ConvertError α} {next : α → Except ConvertError β} {p : Prop}
    (h : ∀ a, Accepted (next a) ↔ p) : Accepted (x >>= next) ↔ Accepted x ∧ p := by
  cases x with
  | error e =>
    exact iff_of_false (not_accepted_error e) fun h => not_accepted_error e h.1
  | ok a =>
    change Accepted (next a) ↔ _
    rw [h a]
    exact (and_iff_right (accepted_ok a)).symm

theorem accepted_bind_pure (x : Except ConvertError α) (g : α → β) :
    Accepted (x >>= fun a => pure (g a)) ↔ Accepted x := by
  cases x with
  | error e => exact iff_of_false (not_accepted_error e) (not_accepted_error e)
  | ok a => exact iff_of_true (accepted_ok _) (accepted_ok a)

/-- Steps that act on something one after the other are accepted when each is, if what they act on
makes no difference to that. -/
theorem accepted_foldlM {α ι : Type} {step : α → ι → Except ConvertError α} {P : ι → Prop}
    (h : ∀ a x, Accepted (step a x) ↔ P x) : ∀ (xs : List ι) (a : α),
    Accepted (xs.foldlM step a) ↔ ∀ x ∈ xs, P x
  | [], a => iff_of_true (accepted_ok a) fun _ hx => absurd hx List.not_mem_nil
  | x :: xs, a => by
    rw [List.foldlM_cons, accepted_bind fun b => accepted_foldlM h xs b, h, List.forall_mem_cons]

end Accepted

/-! ## Names and arguments -/

/-- The rules that limit a size. -/
def Keywords.sizeRules : List String := ["min", "max", "length"]

/-- The rules that say what a string looks like. -/
def Keywords.lookRules : List String :=
  ["alphanum", "token", "hex", "base64", "dataUri", "ip", "uri", "guid", "uuid", "hostname", "email",
    "isoDate", "regex", "pattern"]

/-- The rules that set a bound of a number as it is written. -/
def Keywords.boundRules : List String := ["min", "max", "greater", "less", "multiple"]

namespace Kind

open Keywords (sizeRules lookRules boundRules)

/-- The names of the rules that a kind knows. -/
def ruleNames : Kind → List String
  | string => sizeRules ++ lookRules
  | number => boundRules ++ ["integer", "precision", "positive", "negative", "port"]
  | binary => sizeRules
  | date => ["min", "max", "greater", "less"]
  | array => sizeRules ++ ["unique"]
  | object => sizeRules
  | boolean => []
  | alternatives => []

def knows (kind : Kind) (rule : Rule) : Bool := rule.name ∈ kind.ruleNames

/-- **What a kind refuses in the argument of a rule that it knows.** -/
def RefusesArgument : Kind → Rule → Prop
  | string, rule =>
    rule.name ∈ sizeRules ∧ (∀ x, rule.arg ≠ .number x) ∨
      rule.name ∈ ["regex", "pattern"] ∧ (rule.argFlag "invert" = true ∨
        ((rule.argField? "pattern").getD rule.arg).string? = none)
  | number, rule => rule.name ∈ boundRules ∧ ∀ x, rule.arg ≠ .number x
  | binary, rule => rule.name ∈ sizeRules ∧ ∀ x, rule.arg ≠ .number x
  | date, rule =>
    rule.name ∈ ["min", "max", "greater", "less"] ∧ Keywords.limitInstant? rule.arg = none
  | array, rule =>
    rule.name ∈ sizeRules ∧ (∀ x, rule.arg ≠ .number x) ∨
      rule.name = "unique" ∧
        (rule.argFlag "comparator" = true ∨ rule.argFlag "ignoreUndefined" = true)
  | object, rule => rule.name ∈ sizeRules ∧ ∀ x, rule.arg ≠ .number x
  | boolean, _ => False
  | alternatives, _ => False

/-- **Rules are taken by the vocabulary of a kind**; `skipped` is what a rule that is skipped
gives. -/
structure TakesRules {α : Type} (kind : Kind) (skipped : α)
    (ofRule : Settings → Rule → Except ConvertError α) : Prop where
  unknown : ∀ (s : Settings) (rule : Rule), rule.name ∉ kind.ruleNames →
    ofRule s rule = if s.ignoreUnknownRules then .ok skipped
      else .error (.unknownRule kind.name rule.name)
  known : ∀ {s s' : Settings} (rule : Rule), rule.name ∈ kind.ruleNames → s.ipFormat = s'.ipFormat →
    ofRule s rule = ofRule s' rule
  accepted : ∀ (s : Settings) (rule : Rule), rule.name ∈ kind.ruleNames →
    (Accepted (ofRule s rule) ↔ ¬kind.RefusesArgument rule)

end Kind

namespace Keywords

/-! ## Arguments and limits -/

theorem accepted_numberArg (typeName : String) (rule : Rule) :
    Accepted (numberArg typeName rule) ↔ ¬∀ x, rule.arg ≠ .number x := by
  unfold numberArg
  cases h : rule.arg <;> simp

theorem applyLimit?_of_not_mem {rule : Rule} (h : rule.name ∉ sizeRules) (names : LimitNames)
    (typeName : String) (f : Fragment) : applyLimit? names typeName f rule = none := by
  simp only [sizeRules, List.mem_cons, List.not_mem_nil, or_false, not_or] at h
  simp [applyLimit?, h]

theorem applyLimit?_of_mem {rule : Rule} (h : rule.name ∈ sizeRules) (names : LimitNames)
    (typeName : String) (f : Fragment) :
    ∃ set, applyLimit? names typeName f rule = some ((numberArg typeName rule).map set) := by
  simp only [sizeRules, List.mem_cons, List.not_mem_nil, or_false] at h
  rcases h with h | h | h
  · exact ⟨_, by simp only [applyLimit?, h, if_true]; rfl⟩
  · exact ⟨_, by simp [applyLimit?, h]; rfl⟩
  · exact ⟨_, by simp [applyLimit?, h]; rfl⟩

/-! ## How each kind takes its rules -/

theorem skipRule_eq (s : Settings) (typeName : String) (f : Fragment) (rule : Rule) :
    skipRule s typeName f rule =
      if s.ignoreUnknownRules then .ok f else .error (.unknownRule typeName rule.name) := by
  unfold skipRule unknownRule
  cases s.ignoreUnknownRules <;> rfl

theorem takesRules_unknownRule {kind : Kind} (hnames : kind.ruleNames = []) :
    kind.TakesRules () fun s => unknownRule s kind.name where
  unknown := fun _ _ _ => rfl
  known := fun rule h => by
    rw [hnames] at h
    exact absurd h List.not_mem_nil
  accepted := fun _ rule h => by
    rw [hnames] at h
    exact absurd h List.not_mem_nil

theorem accepted_of_size {α : Type} {rule : Rule} (typeName : String) (set : Json → α) {p : Prop}
    (hp : p ↔ ∀ x, rule.arg ≠ .number x) :
    Accepted ((numberArg typeName rule).map set) ↔ ¬p := by
  rw [accepted_map, accepted_numberArg, hp]

theorem takesRules_applyLimit {kind : Kind} (hnames : kind.ruleNames = sizeRules)
    (hrefuses : ∀ rule, kind.RefusesArgument rule ↔
      rule.name ∈ sizeRules ∧ ∀ x, rule.arg ≠ .number x) (limits : LimitNames) (f : Fragment) :
    kind.TakesRules f fun s => applyLimit s limits kind.name f where
  unknown := fun s rule h => by
    rw [hnames] at h
    rw [applyLimit, applyLimit?_of_not_mem h]
    exact skipRule_eq s kind.name f rule
  known := fun rule h _ => by
    rw [hnames] at h
    obtain ⟨set, hset⟩ := applyLimit?_of_mem h limits kind.name f
    rw [applyLimit, applyLimit, hset]
    rfl
  accepted := fun s rule h => by
    rw [hnames] at h
    obtain ⟨set, hset⟩ := applyLimit?_of_mem h limits kind.name f
    rw [applyLimit, hset]
    exact accepted_of_size _ set ((hrefuses rule).trans (and_iff_right h))

theorem takesRules_boolean : Kind.boolean.TakesRules () fun s => unknownRule s "boolean" :=
  takesRules_unknownRule rfl

theorem takesRules_alternatives :
    Kind.alternatives.TakesRules () fun s => unknownRule s "alternatives" :=
  takesRules_unknownRule rfl

theorem takesRules_binary (f : Fragment) :
    Kind.binary.TakesRules f fun s => applyLimit s lengthLimits "binary" f :=
  takesRules_applyLimit rfl (fun _ => .rfl) lengthLimits f

theorem takesRules_object (f : Fragment) :
    Kind.object.TakesRules f fun s => applyLimit s propertyLimits "object" f :=
  takesRules_applyLimit rfl (fun _ => .rfl) propertyLimits f

theorem takesRules_applyArrayRule (f : Fragment) :
    Kind.array.TakesRules f fun s => applyArrayRule s f where
  unknown := fun s rule h => by
    simp only [Kind.ruleNames, List.mem_append, List.mem_singleton, not_or] at h
    rw [applyArrayRule, applyLimit?_of_not_mem h.1]
    simp only [h.2, if_false]
    exact skipRule_eq s "array" f rule
  known := fun {s s'} rule h _ => by
    by_cases hsize : rule.name ∈ sizeRules
    · obtain ⟨set, hset⟩ := applyLimit?_of_mem hsize itemLimits "array" f
      rw [applyArrayRule, applyArrayRule, hset]
    · have hname : rule.name = "unique" := by
        simpa [Kind.ruleNames, hsize] using h
      rw [applyArrayRule, applyArrayRule, applyLimit?_of_not_mem hsize]
      simp only [hname, if_true]
  accepted := fun s rule h => by
    by_cases hsize : rule.name ∈ sizeRules
    · obtain ⟨set, hset⟩ := applyLimit?_of_mem hsize itemLimits "array" f
      rw [applyArrayRule, hset]
      refine accepted_of_size _ set ?_
      have hname : rule.name ≠ "unique" := by
        rintro hname
        rw [hname] at hsize
        exact absurd hsize (by decide)
      simp [Kind.RefusesArgument, hsize, hname]
    · have hname : rule.name = "unique" := by
        simpa [Kind.ruleNames, hsize] using h
      rw [applyArrayRule, applyLimit?_of_not_mem hsize]
      rw [hname] at hsize
      simp only [hname, if_true]
      cases hu : rule.argFlag "ignoreUndefined" <;> cases hc : rule.argFlag "comparator" <;>
        simp [Kind.RefusesArgument, hname, hsize, hu, hc]

theorem isSome_dateKeyword? (name : String) :
    (dateKeyword? name).isSome ↔ name ∈ Kind.date.ruleNames := by
  unfold dateKeyword?
  split <;> simp_all [Kind.ruleNames]

theorem takesRules_applyDateRule (f : Fragment) :
    Kind.date.TakesRules f fun s => applyDateRule s f where
  unknown := fun s rule h => by
    rw [← isSome_dateKeyword?, Option.not_isSome_iff_eq_none] at h
    rw [applyDateRule, h]
    exact skipRule_eq s "date" f rule
  known := fun rule h _ => by
    rw [← isSome_dateKeyword?, Option.isSome_iff_exists] at h
    obtain ⟨keyword, h⟩ := h
    rw [applyDateRule, applyDateRule, h]
  accepted := fun s rule h => by
    have hrefuses : Kind.date.RefusesArgument rule ↔ limitInstant? rule.arg = none :=
      and_iff_right h
    rw [← isSome_dateKeyword?, Option.isSome_iff_exists] at h
    obtain ⟨keyword, h⟩ := h
    rw [applyDateRule, h, hrefuses, dateLimit]
    cases limitInstant? rule.arg <;> simp

/-! ### Strings -/

theorem isSome_look? (s : Settings) (flags : Flags) (rule : Rule) :
    (look? s flags rule).isSome ↔ rule.name ∈ lookRules := by
  unfold look?
  split <;> simp_all [lookRules]

theorem look?_congr {s s' : Settings} (h : s.ipFormat = s'.ipFormat) (flags : Flags)
    (rule : Rule) : look? s flags rule = look? s' flags rule := by
  unfold look?
  rw [h]

theorem accepted_patternText (rule : Rule) :
    Accepted (patternText rule) ↔ ¬(rule.argFlag "invert" = true ∨
      ((rule.argField? "pattern").getD rule.arg).string? = none) := by
  unfold patternText
  cases rule.argFlag "invert" <;>
    cases ((rule.argField? "pattern").getD rule.arg).string? <;> simp

theorem accepted_look? {s : Settings} {flags : Flags} {rule : Rule}
    {x : Except ConvertError (String × Json)} (h : look? s flags rule = some x) :
    Accepted x ↔ (rule.name ∈ ["regex", "pattern"] → Accepted (patternText rule)) := by
  unfold look? at h
  split at h <;> cases h <;> simp_all

theorem takesRules_applyStringRule (flags : Flags) (f : Fragment) :
    Kind.string.TakesRules f fun s => applyStringRule s flags f where
  unknown := fun s rule h => by
    rw [Kind.ruleNames, List.mem_append, not_or, ← isSome_look? s flags,
      Option.not_isSome_iff_eq_none] at h
    rw [applyStringRule, applyLimit?_of_not_mem h.1, h.2]
    exact skipRule_eq s "string" f rule
  known := fun {s s'} rule h hformat => by
    by_cases hsize : rule.name ∈ sizeRules
    · obtain ⟨set, hset⟩ := applyLimit?_of_mem hsize lengthLimits "string" f
      rw [applyStringRule, applyStringRule, hset]
    · have hlook := (List.mem_append.1 h).resolve_left hsize
      rw [← isSome_look? s flags, Option.isSome_iff_exists] at hlook
      obtain ⟨x, hx⟩ := hlook
      rw [applyStringRule, applyStringRule, applyLimit?_of_not_mem hsize, ← look?_congr hformat, hx]
  accepted := fun s rule h => by
    by_cases hsize : rule.name ∈ sizeRules
    · obtain ⟨set, hset⟩ := applyLimit?_of_mem hsize lengthLimits "string" f
      rw [applyStringRule, hset]
      refine accepted_of_size _ set ?_
      have hname : rule.name ∉ ["regex", "pattern"] := fun hname => by
        simp only [List.mem_cons, List.not_mem_nil, or_false] at hname
        rcases hname with hname | hname <;> rw [hname] at hsize <;> exact absurd hsize (by decide)
      rw [Kind.RefusesArgument, and_iff_right hsize]
      exact or_iff_left fun h => hname h.1
    · have hlook := (List.mem_append.1 h).resolve_left hsize
      rw [← isSome_look? s flags, Option.isSome_iff_exists] at hlook
      obtain ⟨x, hx⟩ := hlook
      rw [applyStringRule, applyLimit?_of_not_mem hsize, hx]
      dsimp only
      rw [accepted_map, accepted_look? hx, accepted_patternText, Kind.RefusesArgument, ← not_and]
      exact not_congr (or_iff_right fun h => hsize h.1).symm

/-! ### Numbers -/

theorem isSome_boundKeyword? (name : String) :
    (boundKeyword? name).isSome ↔ name ∈ boundRules := by
  unfold boundKeyword?
  split <;> simp_all [boundRules]

theorem isSome_impliedBy? (name : String) :
    (impliedBy? name).isSome ↔ name ∈ ["integer", "precision", "positive", "negative", "port"] := by
  unfold impliedBy?
  split <;> simp_all

/-- The rules of a number act on the fragment, which a rule that is skipped leaves as it is. -/
theorem takesRules_applyNumberRule (f : Fragment) :
    Kind.number.TakesRules f fun s => applyNumberRule s f where
  unknown := fun s rule h => by
    rw [Kind.ruleNames, List.mem_append, not_or, ← isSome_boundKeyword?, ← isSome_impliedBy?,
      Option.not_isSome_iff_eq_none, Option.not_isSome_iff_eq_none] at h
    simp only [applyNumberRule, h.1, h.2]
    exact skipRule_eq s "number" f rule
  known := fun {s s'} rule h _ => by
    unfold applyNumberRule
    cases hb : boundKeyword? rule.name with
    | some keyword => rfl
    | none =>
      rw [Kind.ruleNames, List.mem_append, ← isSome_boundKeyword?, hb] at h
      have himplied := h.resolve_left (by simp)
      rw [← isSome_impliedBy?, Option.isSome_iff_exists] at himplied
      obtain ⟨apply, ha⟩ := himplied
      rw [ha]
  accepted := fun s rule h => by
    rw [applyNumberRule, Kind.RefusesArgument]
    cases hb : boundKeyword? rule.name with
    | some keyword =>
      have hbound : rule.name ∈ boundRules := (isSome_boundKeyword? _).1 (by rw [hb]; rfl)
      rw [and_iff_right hbound, accepted_map, accepted_numberArg]
    | none =>
      have hbound : rule.name ∉ boundRules := by
        rw [← isSome_boundKeyword?, hb]
        exact Bool.false_ne_true
      have himplied := (List.mem_append.1 h).resolve_left hbound
      rw [← isSome_impliedBy?, Option.isSome_iff_exists] at himplied
      obtain ⟨apply, ha⟩ := himplied
      rw [ha]
      exact iff_of_true (accepted_ok _) fun h => hbound h.1

end Keywords

/-! ## Lists of rules -/

namespace Kind

theorem mem_ruleNames_of_refusesArgument {kind : Kind} {rule : Rule}
    (h : kind.RefusesArgument rule) : rule.name ∈ kind.ruleNames := by
  cases kind with
  | string =>
    rcases h with h | h
    · exact List.mem_append_left _ h.1
    · have hlook : rule.name = "regex" ∨ rule.name = "pattern" := by simpa using h.1
      rcases hlook with hlook | hlook <;> rw [hlook] <;> decide
  | number => exact List.mem_append_left _ h.1
  | array =>
    rcases h with h | h
    · exact List.mem_append_left _ h.1
    · rw [h.1]
      decide
  | binary | date | object => exact h.1
  | boolean | alternatives => exact h.elim

/-- A rule that is not refused: it is known or skipped, and nothing is wrong with its argument. -/
structure AcceptsRule (kind : Kind) (s : Settings) (rule : Rule) : Prop where
  argument : ¬kind.RefusesArgument rule
  name : rule.name ∈ kind.ruleNames ∨ s.ignoreUnknownRules = true

theorem TakesRules.accepted_iff {α : Type} {kind : Kind} {skipped : α}
    {ofRule : Settings → Rule → Except ConvertError α} (h : kind.TakesRules skipped ofRule)
    (s : Settings) (rule : Rule) : Accepted (ofRule s rule) ↔ kind.AcceptsRule s rule := by
  by_cases hname : rule.name ∈ kind.ruleNames
  · rw [h.accepted s rule hname]
    exact ⟨fun harg => ⟨harg, .inl hname⟩, AcceptsRule.argument⟩
  · have harg : ¬kind.RefusesArgument rule := mt mem_ruleNames_of_refusesArgument hname
    rw [h.unknown s rule hname]
    cases hs : s.ignoreUnknownRules with
    | true => exact iff_of_true (accepted_ok skipped) ⟨harg, .inr hs⟩
    | false =>
      refine iff_of_false (not_accepted_error _) fun haccepts => ?_
      exact haccepts.name.elim hname fun ht => Bool.false_ne_true (hs.symm.trans ht)

end Kind

namespace Keywords

/-- Rules that are only checked might as well act on something that they leave as it is. -/
theorem forM_eq_foldlM (check : Rule → Except ConvertError Unit) : ∀ rules : List Rule,
    rules.forM check = rules.foldlM (fun _ rule => check rule) ()
  | [] => rfl
  | rule :: rules => by
    rw [List.foldlM_cons]
    exact bind_congr fun _ => forM_eq_foldlM check rules

/-- Rules that act on something one after the other are accepted when each is. -/
theorem accepted_rules {α : Type} {kind : Kind} {step : Settings → α → Rule → Except ConvertError α}
    (h : ∀ a, kind.TakesRules a fun s => step s a) (s : Settings) (rules : List Rule) (a : α) :
    Accepted (rules.foldlM (step s) a) ↔ ∀ rule ∈ rules, kind.AcceptsRule s rule :=
  accepted_foldlM (fun a => (h a).accepted_iff s) rules a

/-- The rules that a kind does not know can be left out where they are skipped. -/
theorem foldlM_filter {α : Type} {kind : Kind} {step : Settings → α → Rule → Except ConvertError α}
    (h : ∀ a, kind.TakesRules a fun s => step s a) {s s' : Settings}
    (hskip : s.ignoreUnknownRules = true) (hformat : s.ipFormat = s'.ipFormat) :
    ∀ (rules : List Rule) (a : α),
      rules.foldlM (step s) a = (rules.filter kind.knows).foldlM (step s') a
  | [], _ => rfl
  | rule :: rules, a => by
    by_cases hname : rule.name ∈ kind.ruleNames
    · have hknows : kind.knows rule = true := decide_eq_true hname
      rw [List.filter_cons_of_pos hknows, List.foldlM_cons, List.foldlM_cons,
        (h a).known rule hname hformat]
      exact bind_congr fun b => foldlM_filter h hskip hformat rules b
    · have hknows : ¬kind.knows rule = true := by simpa [Kind.knows] using hname
      rw [List.filter_cons_of_neg hknows, List.foldlM_cons, (h a).unknown s rule hname,
        if_pos hskip]
      exact foldlM_filter h hskip hformat rules a

end Keywords
end Schemata
