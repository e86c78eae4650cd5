import Schemata.Proofs.Bounds
import Schemata.Proofs.Folds
/-!
# Limits — what the rules of a number come to

A limit takes the place of whatever was there and an edge only tightens, so a bound is decided by its
last limit and by whether an edge comes behind that (`Kind.convert_number`).

An edge therefore holds unless a limit behind it loosens it: a limit is not compared with the edges
before it (`Description.convert_edges`, `Description.convert_port_loosened`).
-/
namespace Schemata
namespace Keywords

section Runs

variable {settings : Settings} {rules : List Rule} {f g : Fragment} {b : Bound}

/-- **Rules without a limit** only tighten: what is strictly stricter than the edge stays, and what is
not, gives way to the edge if that comes. -/
theorem get?_of_no_limit : ∀ {rules : List Rule} {f : Fragment},
    (∀ rule ∈ rules, rule.name ≠ b.limitRule) →
    rules.foldlM (applyNumberRule settings) f = .ok g →
    ((∀ rule ∈ rules, rule.name ≠ b.edgeRule) ∨ b.Stands (f.get? b.keyword) →
      g.get? b.keyword = f.get? b.keyword) ∧
    ((∃ rule ∈ rules, rule.name = b.edgeRule) → ¬b.Stands (f.get? b.keyword) →
      g.get? b.keyword = some b.edgeValue)
  | [], f, _, h => by
    cases h
    exact ⟨fun _ => rfl, fun ⟨_, hmem, _⟩ => absurd hmem List.not_mem_nil⟩
  | rule :: rules, f, hlimit, h => by
    rw [List.forall_mem_cons] at hlimit
    obtain ⟨f₁, hrule, h⟩ := foldlM_cons_ok h
    obtain ⟨hkept, htightened⟩ := get?_of_no_limit hlimit.2 h
    by_cases hedge : rule.name = b.edgeRule
    · obtain ⟨hstands, hgives⟩ := get?_of_edgeRule hrule hedge
      refine ⟨fun hcase => ?_, fun _ hnot => ?_⟩
      · have hf : b.Stands (f.get? b.keyword) :=
          hcase.resolve_left fun hnone => hnone rule List.mem_cons_self hedge
        have hf₁ := hstands hf
        rw [hkept (.inr (hf₁.symm ▸ hf)), hf₁]
      · have hf₁ := hgives hnot
        by_cases hmore : ∃ later ∈ rules, later.name = b.edgeRule
        · refine htightened hmore ?_
          rw [hf₁]
          exact b.not_stands_edgeValue
        · rw [hkept (.inl fun later hl he => hmore ⟨later, hl, he⟩), hf₁]
    · have hsame := get?_of_other hrule hlimit.1 hedge
      rw [hsame] at hkept htightened
      refine ⟨fun hcase => hkept (hcase.imp_left fun hnone => ?_), fun hmore hnot => ?_⟩
      · exact fun later hl => hnone later (List.mem_cons_of_mem _ hl)
      · obtain ⟨later, hl, he⟩ := hmore
        rcases List.mem_cons.1 hl with rfl | hl
        · exact absurd he hedge
        · exact htightened ⟨later, hl, he⟩ hnot

end Runs

/-- The last limit of a bound, with the rules behind it. -/
abbrev Bound.LastLimit (b : Bound) (rules : List Rule) (rule : Rule) (behind : List Rule) : Prop :=
  IsLast (fun rule => rule.name = b.limitRule) rules rule behind

/-- The last rule that says which type a number has, with the rules behind it. -/
abbrev LastTyping (rules : List Rule) (rule : Rule) (behind : List Rule) : Prop :=
  IsLast (fun rule => rule.name ∈ typeRules) rules rule behind

/-- **The value that the rules decide for a bound.** -/
structure Bound.Decided (b : Bound) (rules : List Rule) (value : Option Json) : Prop where
  /-- There is none when neither rule occurs. -/
  absent : value = none ↔ ∀ rule ∈ rules, rule.name ≠ b.limitRule ∧ rule.name ≠ b.edgeRule
  /-- Without a limit it is the edge. -/
  implied : (∀ rule ∈ rules, rule.name ≠ b.limitRule) → (∃ rule ∈ rules, rule.name = b.edgeRule) →
    value = some b.edgeValue
  /-- The last limit is left as it is written unless an edge comes behind it that is as strict. -/
  limited : ∀ rule behind, b.LastLimit rules rule behind → ∃ a, rule.arg = .number a ∧
    ((∀ later ∈ behind, later.name ≠ b.edgeRule) ∨ b.IsStricter a → value = some (.number a)) ∧
    ((∃ later ∈ behind, later.name = b.edgeRule) → ¬b.IsStricter a → value = some b.edgeValue)

/-- **An edge holds** if and only if a last limit without an edge behind it keeps it. -/
theorem Bound.Decided.keeps_iff {b : Bound} {rules : List Rule} {value : Option Json}
    (h : b.Decided rules value) (hedge : ∃ rule ∈ rules, rule.name = b.edgeRule) :
    ∃ x, value = some (.number x) ∧
      (b.Keeps x ↔ ∀ rule behind a, rule.arg = .number a → b.LastLimit rules rule behind →
        (∀ later ∈ behind, later.name ≠ b.edgeRule) → b.Keeps a) := by
  by_cases hlimit : ∃ rule ∈ rules, rule.name = b.limitRule
  · obtain ⟨rule, behind, hlast⟩ := IsLast.exists_of_mem hlimit
    obtain ⟨a, ha, hkept, hgives⟩ := h.limited rule behind hlast
    by_cases hbehind : ∃ later ∈ behind, later.name = b.edgeRule
    · -- An edge behind the last limit: it is kept, whichever of the two stands.
      have hvacuous : ∀ rule' behind' a', rule'.arg = .number a' → b.LastLimit rules rule' behind' →
          (∀ later ∈ behind', later.name ≠ b.edgeRule) → b.Keeps a' := by
        intro rule' behind' a' _ hlast' hnone
        obtain ⟨rfl, rfl⟩ := hlast.unique hlast'
        obtain ⟨later, hl, he⟩ := hbehind
        exact absurd he (hnone later hl)
      by_cases hstricter : b.IsStricter a
      · exact ⟨a, hkept (.inr hstricter), iff_of_true hstricter.keeps hvacuous⟩
      · exact ⟨_, hgives hbehind hstricter, iff_of_true b.keeps_edge hvacuous⟩
    · have hnone : ∀ later ∈ behind, later.name ≠ b.edgeRule := fun later hl he =>
        hbehind ⟨later, hl, he⟩
      refine ⟨a, hkept (.inl hnone), fun hkeeps rule' behind' a' ha' hlast' _ => ?_, fun hall => ?_⟩
      · obtain ⟨rfl, rfl⟩ := hlast.unique hlast'
        rw [ha] at ha'
        cases ha'
        exact hkeeps
      · exact hall rule behind a ha hlast hnone
  · refine ⟨_, h.implied (fun rule hr he => hlimit ⟨rule, hr, he⟩) hedge,
      iff_of_true b.keeps_edge ?_⟩
    intro rule behind _ _ hlast
    exact absurd ⟨rule, hlast.mem, hlast.holds⟩ hlimit

section Runs

variable {settings : Settings} {rules : List Rule} {f g : Fragment} {b : Bound}

/-- **The rules decide a bound** that is not there before. -/
theorem decided_of_rules (hnone : f.get? b.keyword = none)
    (h : rules.foldlM (applyNumberRule settings) f = .ok g) :
    b.Decided rules (g.get? b.keyword) := by
  have hlimited : ∀ rule behind, b.LastLimit rules rule behind → ∃ a, rule.arg = .number a ∧
      ((∀ later ∈ behind, later.name ≠ b.edgeRule) ∨ b.IsStricter a →
        g.get? b.keyword = some (.number a)) ∧
      ((∃ later ∈ behind, later.name = b.edgeRule) → ¬b.IsStricter a →
        g.get? b.keyword = some b.edgeValue) := by
    intro rule behind hlast
    obtain ⟨f₁, f₂, hrule, hbehind⟩ := hlast.foldlM_ok h
    obtain ⟨a, ha, hf₂⟩ := get?_of_limitRule hrule hlast.holds
    have hrest := get?_of_no_limit hlast.none_behind hbehind
    rw [hf₂, Bound.stands_number] at hrest
    exact ⟨a, ha, hrest⟩
  have hnot : ¬b.Stands (f.get? b.keyword) := by
    rw [hnone]
    exact b.not_stands_none
  have himplied : (∀ rule ∈ rules, rule.name ≠ b.limitRule) →
      (∃ rule ∈ rules, rule.name = b.edgeRule) → g.get? b.keyword = some b.edgeValue :=
    fun hlimit hedge => (get?_of_no_limit hlimit h).2 hedge hnot
  have hpresent : (∃ rule ∈ rules, rule.name = b.limitRule ∨ rule.name = b.edgeRule) →
      g.get? b.keyword ≠ none := by
    rintro ⟨rule, hmem, hname⟩ habsent
    rw [habsent] at hlimited himplied
    by_cases hlimit : ∃ rule ∈ rules, rule.name = b.limitRule
    · obtain ⟨last, behind, hlast⟩ := IsLast.exists_of_mem hlimit
      obtain ⟨a, -, hkept, hgives⟩ := hlimited last behind hlast
      by_cases hedge : (∃ later ∈ behind, later.name = b.edgeRule) ∧ ¬b.IsStricter a
      · cases hgives hedge.1 hedge.2
      · cases hkept (or_iff_not_imp_right.2 fun hnot later hl he => hedge ⟨⟨later, hl, he⟩, hnot⟩)
    · have hedge := hname.resolve_left fun he => hlimit ⟨rule, hmem, he⟩
      cases himplied (fun rule hr he => hlimit ⟨rule, hr, he⟩) ⟨rule, hmem, hedge⟩
  refine ⟨⟨fun habsent rule hmem => ?_, fun hneither => ?_⟩, himplied, hlimited⟩
  · exact ⟨fun he => hpresent ⟨rule, hmem, .inl he⟩ habsent,
      fun he => hpresent ⟨rule, hmem, .inr he⟩ habsent⟩
  · have hkept := (get?_of_no_limit (fun rule hr => (hneither rule hr).1) h).1
      (.inl fun rule hr => (hneither rule hr).2)
    rw [hkept, hnone]

/-- **The last rule that says so decides the type.** -/
theorem type_of_rules (hnumber : f.get? "type" = some (.string "number"))
    (h : rules.foldlM (applyNumberRule settings) f = .ok g) :
    g.get? "type" = some (.string "integer") ↔
      ∃ rule behind, LastTyping rules rule behind ∧ (rule.name = "integer" ∨ rule.name = "port") := by
  have hkeeps : ∀ (s : Fragment) (rule : Rule) (s' : Fragment), rule.name ∉ typeRules →
      applyNumberRule settings s rule = .ok s' → s'.get? "type" = s.get? "type" :=
    fun _ _ _ hname hrule => get?_type_of_not_mem hrule hname
  have hlast : ∀ rule behind, LastTyping rules rule behind →
      (g.get? "type" = some (.string "integer") ↔
        rule.name = "integer" ∨ rule.name = "port") := by
    intro rule behind hlast
    obtain ⟨f₁, f₂, hrule, hg⟩ := hlast.observe_eq (fun f => f.get? "type") hkeeps h
    rw [hg, get?_type_of_mem hrule hlast.holds]
    split
    · rename_i hwhole
      exact iff_of_true rfl hwhole
    · rename_i hwhole
      exact iff_of_false (by simp) hwhole
  constructor
  · intro hinteger
    by_cases hsome : ∃ rule ∈ rules, rule.name ∈ typeRules
    · obtain ⟨rule, behind, hl⟩ := IsLast.exists_of_mem hsome
      exact ⟨rule, behind, hl, (hlast rule behind hl).1 hinteger⟩
    · have hkept := foldlM_keeps (fun f : Fragment => f.get? "type") hkeeps
        (fun rule hr hname => hsome ⟨rule, hr, hname⟩) h
      rw [hinteger, hnumber] at hkept
      exact absurd hkept (by simp)
  · rintro ⟨rule, behind, hl, hwhole⟩
    exact (hlast rule behind hl).2 hwhole

end Runs

/-- Where some rule says which type a number has, the last one says that it is whole unless it is
a precision. -/
theorem lastTyping_whole_iff {rules : List Rule} (hsome : ∃ rule ∈ rules, rule.name ∈ typeRules) :
    (∃ rule behind, LastTyping rules rule behind ∧ (rule.name = "integer" ∨ rule.name = "port")) ↔
      ∀ rule behind, LastTyping rules rule behind → rule.name ≠ "precision" := by
  constructor
  · rintro ⟨rule, behind, hlast, hwhole⟩ rule' behind' hlast' hprecision
    obtain ⟨rfl, -⟩ := hlast.unique hlast'
    rw [hprecision] at hwhole
    exact absurd hwhole (by decide)
  · intro hall
    obtain ⟨rule, behind, hlast⟩ := IsLast.exists_of_mem hsome
    have hname := hlast.holds
    simp only [typeRules, List.mem_cons, List.not_mem_nil, or_false] at hname
    rw [← or_assoc] at hname
    exact ⟨rule, behind, hlast, hname.resolve_right (hall rule behind hlast)⟩

/-- A fragment without bounds, and with no keyword twice. -/
structure Fresh (f : Fragment) : Prop where
  nodup : (Members.names f.keywords).Nodup
  unbounded : ∀ b : Bound, f.get? b.keyword = none

theorem fresh_empty : Fresh {} := ⟨List.nodup_nil, fun _ => rfl⟩

theorem fresh_commonFragment (t : Traits) : Fresh (t.commonFragment t.leadingFragment) :=
  ⟨t.nodup_commonFragment [], fun b => t.get?_commonFragment b.keyword_mem_ownKeywords⟩

variable {settings : Settings} {t : Traits} {f g : Fragment}

theorem decided_of_applyNumber (hfresh : Fresh f) (h : applyNumber settings t f = .ok g)
    (b : Bound) : b.Decided t.rules (g.get? b.keyword) := by
  refine decided_of_rules ?_ h
  rw [f.get?_insert_of_ne (type_ne_keyword b)]
  exact hfresh.unbounded b

theorem type_of_applyNumber (h : applyNumber settings t f = .ok g) :
    g.get? "type" = some (.string "integer") ↔
      ∃ rule behind, LastTyping t.rules rule behind ∧ (rule.name = "integer" ∨ rule.name = "port") :=
  type_of_rules (f.get?_insert_self "type" _) h

end Keywords

open Keywords (Bound Fresh LastTyping)

/-! ## A number -/

theorem Kind.applyNumber_of_run {settings : Settings} {t : Traits} {below : Below} {f g : Fragment}
    {r r' : Registry} (h : (Kind.number.convert settings t below f).run r = (.ok g, r')) :
    Keywords.applyNumber settings t f = .ok g := by
  rw [Kind.convert, Conversion.run_lift] at h
  exact congrArg Prod.fst h

/-- **The bounds of a number.**  A bound is there if and only if its limit or its edge occurs.
Without a limit it is the edge.  Otherwise it is the last limit as it is written, if no edge comes
behind that or if it is strictly stricter than the edge, and the edge if not; which of the two is
stricter, exact values decide.  The type is an integer if and only if the last rule that says
so says so. -/
theorem Kind.convert_number {settings : Settings} {t : Traits} {below : Below} {f g : Fragment}
    {r r' : Registry} (hfresh : Fresh f)
    (h : (Kind.number.convert settings t below f).run r = (.ok g, r')) :
    (∀ b : Bound, b.Decided t.rules (Members.get? g.toMembers b.keyword)) ∧
    (Members.get? g.toMembers "type" = some (.string "integer") ↔
      ∃ rule behind, LastTyping t.rules rule behind ∧
        (rule.name = "integer" ∨ rule.name = "port")) := by
  have hg := applyNumber_of_run h
  have hnodup : (Members.names g.keywords).Nodup := by
    obtain ⟨own, -, rfl⟩ := Keywords.gains_applyNumber hg
    rw [Fragment.keywords_insertAll]
    exact Members.nodup_insertAll own hfresh.nodup
  have hwritten : ∀ name ∈ Kind.number.ownKeywords,
      Members.get? g.toMembers name = g.get? name := by
    intro name hname
    refine Fragment.get?_toMembers hnodup ?_
    rintro rfl
    exact absurd hname (by decide)
  refine ⟨fun b => ?_, ?_⟩
  · rw [hwritten _ b.keyword_mem_ownKeywords]
    exact Keywords.decided_of_applyNumber hfresh hg b
  · rw [hwritten "type" (by decide)]
    exact Keywords.type_of_applyNumber hg

/-- A limit that gives way to an edge, one that equals its edge in another form, and the least binary
number above zero, which is stricter than its edge. -/
theorem Kind.convert_number_mixed :
    let least : Binary64 := ⟨false, 1, by decide⟩
    let t : Traits :=
      { rules :=
          [{ name := "min", arg := .number (.negative ⟨4, by decide⟩) },
           { name := "max", arg := .number (.binary ⟨false, 4679239875398991872, by decide⟩) },
           { name := "port" },
           { name := "greater", arg := .number (.binary least) },
           { name := "positive" },
           { name := "precision" }] }
    let below : Below := ⟨pure [], pure [], pure none, pure none, pure []⟩
    Fresh {} ∧ ∃ g r', (Kind.number.convert {} t below {}).run {} = (.ok g, r') ∧
      Members.get? g.toMembers "minimum" = some (.number (.natural 0)) ∧
      Members.get? g.toMembers "maximum" = some (.number (.natural 65535)) ∧
      Members.get? g.toMembers "exclusiveMinimum" = some (.number (.binary least)) ∧
      Members.get? g.toMembers "exclusiveMaximum" = none ∧
      Members.get? g.toMembers "type" ≠ some (.string "integer") := by
  intro least t below
  obtain ⟨g, r', hrun⟩ : ∃ g r', (Kind.number.convert {} t below {}).run {} = (.ok g, r') :=
    ⟨_, _, rfl⟩
  obtain ⟨hbounds, htype⟩ := convert_number Keywords.fresh_empty hrun
  refine ⟨Keywords.fresh_empty, g, r', hrun, ?_, ?_, ?_, ?_, ?_⟩
  · obtain ⟨a, ha, -, hgives⟩ := (hbounds .minimum).limited _ _ ⟨⟨[], rfl⟩, rfl, by decide⟩
    cases ha
    refine hgives (by decide) ?_
    rw [← Bound.isStricter_iff]
    decide +kernel
  · obtain ⟨a, ha, -, hgives⟩ := (hbounds .maximum).limited _ _ ⟨⟨[_], rfl⟩, rfl, by decide⟩
    cases ha
    refine hgives (by decide) ?_
    rw [← Bound.isStricter_iff]
    decide +kernel
  · obtain ⟨a, ha, hkept, -⟩ :=
      (hbounds .exclusiveMinimum).limited _ _ ⟨⟨[_, _, _], rfl⟩, rfl, by decide⟩
    cases ha
    refine hkept (.inr ?_)
    rw [← Bound.isStricter_iff]
    decide +kernel
  · exact (hbounds .exclusiveMaximum).absent.2 (by decide)
  · rw [Ne, htype]
    rintro ⟨rule, behind, hlast, hwhole⟩
    have hprecision : LastTyping t.rules { name := "precision" } [] :=
      ⟨⟨[_, _, _, _, _], rfl⟩, by decide, by decide⟩
    obtain ⟨rfl, -⟩ := hlast.unique hprecision
    revert hwhole
    decide

namespace Description

variable {o : Options} {d : Description} {r r' : Registry} {result : Option Json}

/-- **The edges of a number.**  When an edge rule of a bound occurs, the bound is there, and it keeps
the edge if and only if a last limit without an edge behind it does.  When a port occurs, the type is
an integer if and only if no precision comes last. -/
theorem convert_edges (hkind : o.resolve d.typeName = some (.inr .number)) (hopen : d.IsOpen o r)
    (h : (d.convert o).run r = (.ok result, r')) :
    ∃ ms, Output o d .number r ms result r' ∧
      (∀ b : Bound, (∃ rule ∈ d.rules, rule.name = b.edgeRule) →
        ∃ x, Members.get? ms b.keyword = some (.number x) ∧
          (b.Keeps x ↔ ∀ rule behind a, rule.arg = .number a → b.LastLimit d.rules rule behind →
            (∀ later ∈ behind, later.name ≠ b.edgeRule) → b.Keeps a)) ∧
      ((∃ rule ∈ d.rules, rule.name = "port") →
        (Members.get? ms "type" = some (.string "integer") ↔
          ∀ rule behind, LastTyping d.rules rule behind → rule.name ≠ "precision")) := by
  obtain ⟨g, s, ms, hrun, houtput, hlookup⟩ := output_of_run hkind (by decide) hopen h
  have hg := Kind.applyNumber_of_run hrun
  refine ⟨ms, houtput, fun b hedge => ?_, fun hport => ?_⟩
  · rw [hlookup _ b.keyword_mem_ownKeywords]
    exact (Keywords.decided_of_applyNumber (Keywords.fresh_commonFragment d.toTraits) hg b).keeps_iff
      hedge
  · rw [hlookup "type" (by decide), Keywords.type_of_applyNumber hg]
    obtain ⟨port, hmem, hname⟩ := hport
    exact Keywords.lastTyping_whole_iff ⟨port, hmem, by rw [hname]; decide⟩

/-- A port between two limits: the first gives way to it, the second does not. -/
theorem convert_edges_between :
    let d : Description :=
      { typeName := "number"
        rules :=
          [{ name := "max", arg := .number (.natural 70000) },
           { name := "port" },
           { name := "min", arg := .number (.negative ⟨4, by decide⟩) }] }
    ({} : Options).resolve d.typeName = some (.inr .number) ∧ d.IsOpen {} {} ∧
    ∃ result r' ms, (d.convert {}).run {} = (.ok result, r') ∧
      Output {} d .number {} ms result r' ∧
      (∃ x, Members.get? ms "maximum" = some (.number x) ∧ Bound.maximum.Keeps x) ∧
      (∃ x, Members.get? ms "minimum" = some (.number x) ∧ ¬Bound.minimum.Keeps x) ∧
      Members.get? ms "type" = some (.string "integer") := by
  intro d
  have hkind : ({} : Options).resolve d.typeName = some (.inr .number) := rfl
  have hopen : d.IsOpen {} {} := fun _ _ => List.not_mem_nil
  obtain ⟨result, r', hrun⟩ : ∃ result r', (d.convert {}).run {} = (.ok result, r') := ⟨_, _, rfl⟩
  obtain ⟨ms, houtput, hbounds, htype⟩ := convert_edges hkind hopen hrun
  refine ⟨hkind, hopen, result, r', ms, hrun, houtput, ?_, ?_, ?_⟩
  · obtain ⟨x, hx, hkeeps⟩ := hbounds .maximum (by decide)
    refine ⟨x, hx, hkeeps.2 fun rule behind a _ hlast hnone => ?_⟩
    have hmax : Bound.maximum.LastLimit d.rules _ _ := ⟨⟨[], rfl⟩, rfl, by decide⟩
    obtain ⟨rfl, rfl⟩ := hlast.unique hmax
    exact absurd hnone (by decide)
  · obtain ⟨x, hx, hkeeps⟩ := hbounds .minimum (by decide)
    refine ⟨x, hx, fun hx => ?_⟩
    have hloose : ((0 : Nat) : ℚ) ≤ (Number.negative ⟨4, by decide⟩).value :=
      hkeeps.1 hx _ [] _ rfl ⟨⟨[_, _], rfl⟩, rfl, by decide⟩ (by decide)
    rw [Number.value_negative] at hloose
    norm_num at hloose
  · refine (htype (by decide)).2 fun rule behind hlast => ?_
    have hport : LastTyping d.rules { name := "port" } _ := ⟨⟨[_], rfl⟩, by decide, by decide⟩
    obtain ⟨rfl, -⟩ := hlast.unique hport
    decide

/-- **A limit behind a port is not clamped**: negative numbers pass. -/
theorem convert_port_loosened :
    let d : Description :=
      { typeName := "number"
        rules :=
          [{ name := "port" }, { name := "min", arg := .number (.negative ⟨4, by decide⟩) }] }
    (∃ rule ∈ d.rules, rule.name = "port") ∧
    ∃ ms x, ((d.convert {}).run {}).1 = .ok (some (.object ms)) ∧
      Members.get? ms "minimum" = some (.number x) ∧ x.value < 0 := by
  intro d
  refine ⟨by decide,
    [("type", .string "integer"), ("minimum", .number (.negative ⟨4, by decide⟩)),
     ("maximum", .number (.natural 65535))], .negative ⟨4, by decide⟩, rfl, rfl, ?_⟩
  rw [Number.value_negative]
  norm_num

end Description
end Schemata
