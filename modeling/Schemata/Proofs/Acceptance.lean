import Schemata.Proofs.Vocabulary
/-!
# Acceptance — what a kind refuses in a node

Beside rules, a kind refuses traits that have no counterpart: flags that change a value, values that
merely count as true or false, an encoding other than the one that is known, dependencies other than
two.  No setting tolerates those.  An object and an alternation refuse some of what can stand in
their lists, too: a key pattern without a key that can be expressed, and a branch that depends on a
condition.

That this is all that a kind refuses is shown of each kind, whatever the fragment that it is handed.
-/
namespace Schemata

/-- The traits of a string that can be any. -/
structure Traits.IsAnyString (t : Traits) : Prop where
  typeName : t.typeName = "string"
  rules : t.rules = []
  valids : t.valids = []
  allowOnly : t.flags.allowOnly = false
  insensitive : t.flags.insensitive = false
  trim : t.flags.trim = false
  truncate : t.flags.truncate = false
  normalize : t.flags.normalize = false
  letterCase : t.flags.letterCase = none

/-- A key pattern that has no key, or one that is described as more than a string. -/
def PatternRule.LacksKey (p : PatternRule Description) : Prop :=
  match p.schema with
  | some key => ¬key.IsAnyString
  | none => p.regex = none

/-- A dependency of a relation that has no counterpart, or that is of one key and does not name
it. -/
def Dependency.IsRefused (d : Dependency) : Prop :=
  d.relation ≠ "and" ∧ (d.relation = "with" → d.key = none)

namespace Kind

/-- **What a kind refuses in the traits of a node**, its rules apart. -/
def RefusesTraits : Kind → Traits → Prop
  | string, t =>
    t.flags.truncate = true ∨ t.flags.trim = true ∨ t.flags.normalize = true ∨
      t.flags.insensitive = true
  | boolean, t => 1 < (t.truthy.getD []).length ∨ 1 < (t.falsy.getD []).length
  | binary, t => ∃ encoding, t.flags.encoding = some encoding ∧ encoding ≠ "base64"
  | date, t => t.flags.timestamp = true
  | array, t => t.flags.sparse = true
  | object, t => ∃ dependency ∈ t.dependencies.getD [], dependency.IsRefused
  | number, _ => False
  | alternatives, _ => False

/-- **What a kind refuses in the lists below a node**, the descriptions in them apart. -/
def RefusesLists : Kind → Description → Prop
  | object, d => ∃ p ∈ d.patterns.getD [], p.LacksKey
  | alternatives, d => ∃ c, Alternative.conditional c ∈ d.alternatives.getD []
  | _, _ => False

/-- Nothing about a node is refused. -/
structure AcceptsNode (kind : Kind) (s : Settings) (d : Description) : Prop where
  traits : ¬kind.RefusesTraits d.toTraits
  rules : ∀ rule ∈ d.rules, kind.AcceptsRule s rule
  lists : ¬kind.RefusesLists d

theorem acceptsNode_iff {kind : Kind} {s : Settings} {d : Description} :
    kind.AcceptsNode s d ↔ (¬kind.RefusesTraits d.toTraits ∧
      ∀ rule ∈ d.rules, kind.AcceptsRule s rule) ∧ ¬kind.RefusesLists d :=
  ⟨fun h => ⟨⟨h.traits, h.rules⟩, h.lists⟩, fun h => ⟨h.1.1, h.1.2, h.2⟩⟩

end Kind

/-! ## Each kind -/

namespace Keywords

variable (s : Settings) (t : Traits) (f : Fragment)

theorem isSome_refusedStringFlag? :
    (refusedStringFlag? t.flags).isSome ↔ Kind.string.RefusesTraits t := by
  rw [refusedStringFlag?, Kind.RefusesTraits]
  cases t.flags.truncate <;> cases t.flags.trim <;> cases t.flags.normalize <;>
    cases t.flags.insensitive <;> simp

theorem accepted_applyString :
    Accepted (applyString s t f) ↔
      ¬Kind.string.RefusesTraits t ∧ ∀ rule ∈ t.rules, Kind.string.AcceptsRule s rule := by
  have hrules := accepted_rules (takesRules_applyStringRule t.flags) s t.rules
  rw [← isSome_refusedStringFlag?, applyString]
  cases refusedStringFlag? t.flags with
  | some construct => simp
  | none => simpa using hrules _

theorem hasAliases_eq (values : Option (List Json)) :
    hasAliases values = true ↔ 1 < (values.getD []).length := by
  cases values <;> simp [hasAliases]

theorem accepted_applyBoolean :
    Accepted (applyBoolean s t f) ↔
      ¬Kind.boolean.RefusesTraits t ∧ ∀ rule ∈ t.rules, Kind.boolean.AcceptsRule s rule := by
  have hrules := accepted_rules (fun _ => takesRules_boolean) s t.rules ()
  rw [Kind.RefusesTraits, ← hasAliases_eq, ← hasAliases_eq, applyBoolean]
  cases hasAliases t.truthy with
  | true => simp
  | false =>
    cases hasAliases t.falsy with
    | true => simp
    | false =>
      simp only [Bool.false_eq_true, if_false, or_self, not_false_eq_true, true_and]
      rw [accepted_bind_pure, forM_eq_foldlM, hrules]

theorem accepted_binaryFormat :
    Accepted (binaryFormat t.flags.encoding) ↔ ¬Kind.binary.RefusesTraits t := by
  rw [Kind.RefusesTraits]
  cases t.flags.encoding with
  | none => simp [binaryFormat]
  | some encoding => by_cases h : encoding = "base64" <;> simp [binaryFormat, h]

theorem accepted_applyBinary :
    Accepted (applyBinary s t f) ↔
      ¬Kind.binary.RefusesTraits t ∧ ∀ rule ∈ t.rules, Kind.binary.AcceptsRule s rule := by
  rw [← accepted_binaryFormat, applyBinary]
  exact accepted_bind fun name => accepted_rules takesRules_binary s t.rules _

theorem accepted_applyDate :
    Accepted (applyDate s t f) ↔
      ¬Kind.date.RefusesTraits t ∧ ∀ rule ∈ t.rules, Kind.date.AcceptsRule s rule := by
  have hrules := accepted_rules takesRules_applyDateRule s t.rules
  rw [Kind.RefusesTraits, applyDate]
  cases t.flags.timestamp with
  | true => simp
  | false => simpa using hrules _

theorem accepted_applyNumber :
    Accepted (applyNumber s t f) ↔
      ¬Kind.number.RefusesTraits t ∧ ∀ rule ∈ t.rules, Kind.number.AcceptsRule s rule := by
  rw [applyNumber, accepted_rules takesRules_applyNumberRule]
  exact (and_iff_right not_false).symm

theorem accepted_applyArrayTraits :
    Accepted (applyArrayTraits s t f) ↔
      ¬Kind.array.RefusesTraits t ∧ ∀ rule ∈ t.rules, Kind.array.AcceptsRule s rule := by
  have hrules := accepted_rules takesRules_applyArrayRule s t.rules
  rw [Kind.RefusesTraits, applyArrayTraits]
  cases t.flags.sparse with
  | true => simp
  | false => simpa using hrules _

theorem accepted_applyObjectTraits :
    Accepted (applyObjectTraits s t f) ↔ ∀ rule ∈ t.rules, Kind.object.AcceptsRule s rule :=
  accepted_rules takesRules_object s t.rules _

theorem accepted_addDependency (ms : Members Json) (d : Dependency) :
    Accepted (addDependency ms d) ↔ ¬d.IsRefused := by
  rw [addDependency, Dependency.IsRefused]
  by_cases hand : d.relation = "and"
  · simp [hand]
  · by_cases hwith : d.relation = "with"
    · cases hkey : d.key <;> simp [hwith]
    · simp [hand, hwith]

theorem accepted_applyDependencies :
    Accepted (applyDependencies t.dependencies f) ↔ ¬Kind.object.RefusesTraits t := by
  rw [Kind.RefusesTraits]
  cases t.dependencies with
  | none => simp [applyDependencies]
  | some ds =>
    rw [applyDependencies, accepted_bind_pure, accepted_foldlM accepted_addDependency]
    simp

theorem isAnyString_iff : isAnyString t = true ↔ t.IsAnyString := by
  constructor
  · intro h
    simp only [isAnyString, Bool.and_eq_true, decide_eq_true_eq, List.isEmpty_iff,
      Bool.not_eq_true', Option.isNone_iff_eq_none, and_assoc] at h
    obtain ⟨h1, h2, h3, h4, h5, h6, h7, h8, h9⟩ := h
    exact ⟨h1, h2, h3, h4, h5, h6, h7, h8, h9⟩
  · rintro ⟨h1, h2, h3, h4, h5, h6, h7, h8, h9⟩
    simp [isAnyString, h1, h2, h3, h4, h5, h6, h7, h8, h9]

theorem accepted_keyPattern (p : PatternRule Description) :
    Accepted (keyPattern (p.schema.map Description.toTraits) p.regex) ↔ ¬p.LacksKey := by
  obtain ⟨regex, schema, rule⟩ := p
  rw [PatternRule.LacksKey]
  cases schema with
  | some key =>
    simp only [Option.map_some, keyPattern, ← isAnyString_iff]
    cases isAnyString key.toTraits <;> simp
  | none => cases regex <;> simp [keyPattern]

end Keywords

end Schemata
