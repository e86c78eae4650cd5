import Schemata.Proofs.Output
import Schemata.Proofs.Rounding
/-!
# Bounds — what one rule does to a number

Each of the four bounds of a number has a rule that sets it as it is written, its limit, and a rule
that implies an edge for it.  A limit takes the place of whatever stood there; an edge takes the place
of what is not strictly stricter, by exact values; and any other rule leaves the bound alone.  In the
same way three rules say which type the number has.
-/
namespace Schemata
namespace Keywords

/-- A keyword that bounds a number. -/
inductive Bound where
  | minimum
  | maximum
  | exclusiveMinimum
  | exclusiveMaximum
  deriving DecidableEq

namespace Bound

def keyword : Bound → String
  | minimum => "minimum"
  | maximum => "maximum"
  | exclusiveMinimum => "exclusiveMinimum"
  | exclusiveMaximum => "exclusiveMaximum"

/-- The rule that sets the bound as it is written. -/
def limitRule : Bound → String
  | minimum => "min"
  | maximum => "max"
  | exclusiveMinimum => "greater"
  | exclusiveMaximum => "less"

/-- The rule that implies an edge. -/
def edgeRule : Bound → String
  | minimum | maximum => "port"
  | exclusiveMinimum => "positive"
  | exclusiveMaximum => "negative"

def edge : Bound → Nat
  | maximum => largestPort
  | minimum | exclusiveMinimum | exclusiveMaximum => 0

def side : Bound → Side
  | minimum | exclusiveMinimum => .lower
  | maximum | exclusiveMaximum => .upper

/-- The edge as it is written: a whole number. -/
def edgeValue (b : Bound) : Json := .number (edgeNumber b.edge)

/-- A limit that is strictly stricter than the edge, by exact values. -/
def IsStricter (b : Bound) (a : Number) : Prop :=
  match b.side with
  | .lower => (b.edge : ℚ) < a.value
  | .upper => a.value < b.edge

/-- A limit that lets nothing pass that the edge does not, by exact values. -/
def Keeps (b : Bound) (a : Number) : Prop :=
  match b.side with
  | .lower => (b.edge : ℚ) ≤ a.value
  | .upper => a.value ≤ b.edge

/-- A value that is a limit strictly stricter than the edge. -/
def Stands (b : Bound) (value : Option Json) : Prop :=
  ∃ a, value = some (.number a) ∧ b.IsStricter a

theorem keyword_injective {b c : Bound} (h : b.keyword = c.keyword) : b = c := by
  cases b <;> cases c <;> first | rfl | exact absurd h (by decide)

theorem keyword_mem_ownKeywords (b : Bound) : b.keyword ∈ Kind.number.ownKeywords := by
  cases b <;> decide

/-! ## Comparisons are exact -/

theorem edge_lt (b : Bound) : b.edge < 2 ^ 53 := by cases b <;> decide

theorem value_nearest_edge (b : Bound) : (edgeNumber b.edge).nearest.value = b.edge := by
  have htoNat : (UInt64.ofNat b.edge).toNat = b.edge := by cases b <;> decide
  rw [edgeNumber, Number.value_nearest_natural (htoNat.symm ▸ b.edge_lt), htoNat]

theorem value_edge (b : Bound) : (edgeNumber b.edge).value = b.edge := by
  have htoNat : (UInt64.ofNat b.edge).toNat = b.edge := by cases b <;> decide
  rw [edgeNumber, Number.value_natural, htoNat]

/-- **The comparison of rounded numbers decides as the exact values do.** -/
theorem isStricter_iff (b : Bound) (a : Number) :
    b.side.isStricter a (edgeNumber b.edge) = true ↔ b.IsStricter a := by
  obtain ⟨hlower, hupper⟩ := a.nearest_iff b.edge_lt
  unfold IsStricter
  cases b.side with
  | lower => rw [Side.isStricter, Binary64.isLess_iff, value_nearest_edge, hlower]
  | upper => rw [Side.isStricter, Binary64.isLess_iff, value_nearest_edge, hupper]

theorem IsStricter.keeps {b : Bound} {a : Number} (h : b.IsStricter a) : b.Keeps a := by
  unfold IsStricter at h
  unfold Keeps
  cases hside : b.side <;> rw [hside] at h <;> exact le_of_lt h

theorem keeps_edge (b : Bound) : b.Keeps (edgeNumber b.edge) := by
  unfold Keeps
  rw [value_edge]
  cases b.side <;> exact le_rfl

theorem not_isStricter_edge (b : Bound) : ¬b.IsStricter (edgeNumber b.edge) := by
  unfold IsStricter
  rw [value_edge]
  cases b.side <;> exact lt_irrefl _

theorem not_stands_none (b : Bound) : ¬b.Stands none := fun ⟨_, h, _⟩ => nomatch h

theorem not_stands_edgeValue (b : Bound) : ¬b.Stands (some b.edgeValue) := by
  rintro ⟨a, ha, hstricter⟩
  cases ha
  exact b.not_isStricter_edge hstricter

theorem stands_number {b : Bound} {a : Number} : b.Stands (some (.number a)) ↔ b.IsStricter a := by
  constructor
  · rintro ⟨x, hx, hstricter⟩
    cases hx
    exact hstricter
  · exact fun h => ⟨a, rfl, h⟩

theorem holdsStricter_iff (b : Bound) (f : Fragment) :
    holdsStricter f b.keyword b.edge b.side = true ↔ b.Stands (f.get? b.keyword) := by
  unfold holdsStricter
  split
  · rename_i x hx
    rw [hx, stands_number, isStricter_iff]
  · rename_i hnot
    refine iff_of_false Bool.false_ne_true ?_
    rintro ⟨a, ha, -⟩
    exact hnot a ha

end Bound

/-! ## One rule -/

section Tightening

variable {keyword other : String} (f : Fragment) (edge : Nat) (side : Side)

theorem get?_tighten_of_ne (h : keyword ≠ other) :
    (tighten f keyword edge side).get? other = f.get? other := by
  unfold tighten
  split
  · rfl
  · exact f.get?_insert_of_ne h _

theorem get?_tighten_self (b : Bound) :
    (b.Stands (f.get? b.keyword) →
      (tighten f b.keyword b.edge b.side).get? b.keyword = f.get? b.keyword) ∧
    (¬b.Stands (f.get? b.keyword) →
      (tighten f b.keyword b.edge b.side).get? b.keyword = some b.edgeValue) := by
  rw [← b.holdsStricter_iff, tighten]
  constructor
  · intro h
    rw [if_pos h]
  · intro h
    rw [if_neg h]
    exact f.get?_insert_self _ _

end Tightening

section Rules

variable {settings : Settings} {rule : Rule} {f g : Fragment} {b : Bound}

theorem limitRule_of_boundKeyword? {name : String} (h : boundKeyword? name = some b.keyword) :
    name = b.limitRule := by
  unfold boundKeyword? at h
  split at h
  · rw [← Bound.keyword_injective (b := .exclusiveMinimum) (Option.some.inj h)]
    rfl
  · rw [← Bound.keyword_injective (b := .exclusiveMaximum) (Option.some.inj h)]
    rfl
  · rw [← Bound.keyword_injective (b := .minimum) (Option.some.inj h)]
    rfl
  · rw [← Bound.keyword_injective (b := .maximum) (Option.some.inj h)]
    rfl
  · cases b <;> exact absurd h (by decide)
  · cases h

theorem boundKeyword?_limitRule (b : Bound) : boundKeyword? b.limitRule = some b.keyword := by
  cases b <;> rfl

theorem type_ne_keyword (b : Bound) : "type" ≠ b.keyword := by cases b <;> decide

theorem format_ne_keyword (b : Bound) : "format" ≠ b.keyword := by cases b <;> decide

/-- What is implied by a rule other than its own leaves a bound as it is. -/
theorem get?_implied_of_ne {name : String} {apply : Fragment → Fragment}
    (h : impliedBy? name = some apply) (hname : name ≠ b.edgeRule) (f : Fragment) :
    (apply f).get? b.keyword = f.get? b.keyword := by
  have hne : ∀ c : Bound, c ≠ b → c.keyword ≠ b.keyword := fun _ hcb he =>
    hcb (Bound.keyword_injective he)
  unfold impliedBy? at h
  split at h <;> cases h
  · exact f.get?_insert_of_ne (type_ne_keyword b) _
  · rw [Fragment.get?_insert_of_ne _ (format_ne_keyword b),
      Fragment.get?_insert_of_ne _ (type_ne_keyword b)]
  · exact get?_tighten_of_ne f 0 .lower (hne .exclusiveMinimum fun he => hname (he ▸ rfl))
  · exact get?_tighten_of_ne f 0 .upper (hne .exclusiveMaximum fun he => hname (he ▸ rfl))
  · have hminimum : "minimum" ≠ b.keyword := hne .minimum fun he => hname (he ▸ rfl)
    have hmaximum : "maximum" ≠ b.keyword := hne .maximum fun he => hname (he ▸ rfl)
    rw [get?_tighten_of_ne _ _ _ hmaximum, get?_tighten_of_ne _ _ _ hminimum,
      Fragment.get?_insert_of_ne _ (type_ne_keyword b)]

/-- **What its own rule implies** tightens a bound. -/
theorem get?_implied_of_edgeRule {apply : Fragment → Fragment}
    (h : impliedBy? b.edgeRule = some apply) (f : Fragment) :
    (b.Stands (f.get? b.keyword) → (apply f).get? b.keyword = f.get? b.keyword) ∧
    (¬b.Stands (f.get? b.keyword) → (apply f).get? b.keyword = some b.edgeValue) := by
  cases b with
  | exclusiveMinimum =>
    cases h
    exact get?_tighten_self f .exclusiveMinimum
  | exclusiveMaximum =>
    cases h
    exact get?_tighten_self f .exclusiveMaximum
  | minimum =>
    cases h
    have hself := get?_tighten_self (f.insert "type" (.string "integer")) .minimum
    rw [Fragment.get?_insert_of_ne _ (type_ne_keyword .minimum)] at hself
    dsimp only
    rw [get?_tighten_of_ne _ _ _ (by decide : "maximum" ≠ Bound.minimum.keyword)]
    exact hself
  | maximum =>
    cases h
    have hself := get?_tighten_self
      (tighten (f.insert "type" (.string "integer")) "minimum" 0 .lower) .maximum
    rw [get?_tighten_of_ne _ _ _ (by decide : "minimum" ≠ Bound.maximum.keyword),
      Fragment.get?_insert_of_ne _ (type_ne_keyword .maximum)] at hself
    exact hself

/-- **One rule and one bound**: its limit sets it, -/
theorem get?_of_limitRule (h : applyNumberRule settings f rule = .ok g)
    (hname : rule.name = b.limitRule) :
    ∃ a, rule.arg = .number a ∧ g.get? b.keyword = some (.number a) := by
  have hbound : boundKeyword? rule.name = some b.keyword := hname ▸ boundKeyword?_limitRule b
  have himplied : impliedBy? rule.name = none := by rw [hname]; cases b <;> rfl
  rcases applyNumberRule_cases h with ⟨keyword, a, hk, ha, rfl⟩ | ⟨apply, hi, -⟩ | ⟨hk, -, -⟩
  · rw [hbound] at hk
    cases hk
    exact ⟨a, ha, f.get?_insert_self _ _⟩
  · rw [himplied] at hi
    cases hi
  · rw [hbound] at hk
    cases hk

/-- its edge tightens it, -/
theorem get?_of_edgeRule (h : applyNumberRule settings f rule = .ok g)
    (hname : rule.name = b.edgeRule) :
    (b.Stands (f.get? b.keyword) → g.get? b.keyword = f.get? b.keyword) ∧
    (¬b.Stands (f.get? b.keyword) → g.get? b.keyword = some b.edgeValue) := by
  have hbound : boundKeyword? rule.name = none := by rw [hname]; cases b <;> rfl
  have himplied : impliedBy? rule.name ≠ none := by rw [hname]; cases b <;> exact nofun
  rcases applyNumberRule_cases h with ⟨keyword, a, hk, -⟩ | ⟨apply, hi, rfl⟩ | ⟨-, hi, -⟩
  · rw [hbound] at hk
    cases hk
  · exact get?_implied_of_edgeRule (hname ▸ hi) f
  · exact absurd hi himplied

/-- and any other rule leaves it as it is. -/
theorem get?_of_other (h : applyNumberRule settings f rule = .ok g)
    (hlimit : rule.name ≠ b.limitRule) (hedge : rule.name ≠ b.edgeRule) :
    g.get? b.keyword = f.get? b.keyword := by
  rcases applyNumberRule_cases h with ⟨keyword, a, hk, -, rfl⟩ | ⟨apply, hi, rfl⟩ | ⟨-, -, rfl⟩
  · refine f.get?_insert_of_ne ?_ _
    rintro rfl
    exact hlimit (limitRule_of_boundKeyword? hk)
  · exact get?_implied_of_ne hi hedge f
  · rfl

/-- The rules that say which type a number has. -/
def typeRules : List String := ["integer", "port", "precision"]

theorem get?_type_of_mem (h : applyNumberRule settings f rule = .ok g)
    (hname : rule.name ∈ typeRules) :
    g.get? "type" =
      some (.string (if rule.name = "integer" ∨ rule.name = "port" then "integer" else "number")) := by
  have hbound : boundKeyword? rule.name = none := by
    have hnone : ∀ name ∈ typeRules, boundKeyword? name = none := by decide
    exact hnone _ hname
  have himplied : ∃ apply, impliedBy? rule.name = some apply := by
    have hsome : ∀ name ∈ typeRules, (impliedBy? name).isSome := by decide
    exact Option.isSome_iff_exists.1 (hsome _ hname)
  rcases applyNumberRule_cases h with ⟨keyword, a, hk, -⟩ | ⟨apply, hi, rfl⟩ | ⟨-, hi, -⟩
  · rw [hbound] at hk
    cases hk
  · clear himplied h hbound
    generalize rule.name = name at hi hname
    simp only [typeRules, List.mem_cons, List.not_mem_nil, or_false] at hname
    rcases hname with rfl | rfl | rfl
    · cases hi
      exact f.get?_insert_self _ _
    · cases hi
      dsimp only
      rw [get?_tighten_of_ne _ _ _ (by decide), get?_tighten_of_ne _ _ _ (by decide)]
      exact f.get?_insert_self _ _
    · cases hi
      dsimp only
      rw [Fragment.get?_insert_of_ne _ (by decide)]
      exact f.get?_insert_self _ _
  · obtain ⟨apply, happly⟩ := himplied
    rw [hi] at happly
    cases happly

theorem get?_type_of_not_mem (h : applyNumberRule settings f rule = .ok g)
    (hname : rule.name ∉ typeRules) : g.get? "type" = f.get? "type" := by
  rcases applyNumberRule_cases h with ⟨keyword, a, hk, -, rfl⟩ | ⟨apply, hi, rfl⟩ | ⟨-, -, rfl⟩
  · refine f.get?_insert_of_ne ?_ _
    rintro rfl
    unfold boundKeyword? at hk
    split at hk <;> simp at hk
  · generalize rule.name = name at hi hname
    unfold impliedBy? at hi
    split at hi <;> cases hi
    · exact absurd (by decide) hname
    · exact absurd (by decide) hname
    · exact get?_tighten_of_ne f 0 .lower (by decide)
    · exact get?_tighten_of_ne f 0 .upper (by decide)
    · exact absurd (by decide) hname
  · rfl

end Rules

end Keywords
end Schemata
