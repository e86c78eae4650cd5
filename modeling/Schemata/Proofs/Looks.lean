import Schemata.Proofs.Folds
import Schemata.Proofs.Output
/-!
# Looks — what a string looks like

Fourteen rules say what a string looks like, half of them by a pattern and half of them by a format.
There is one keyword for all patterns and one for all formats, and it is written over, not added to.
So under each of the two stands what the last rule with that look says, and what another rule says is
lost unless it is the same (`Description.convert_looks`, `Description.convert_looks_lost`).
-/
namespace Schemata

/-- What a string looks like is said by a pattern or by a format. -/
inductive Look where
  | pattern
  | format

namespace Look

/-- The keyword that a look is written under. -/
def keyword : Look → String
  | pattern => "pattern"
  | format => "format"

/-- The names of the rules that say a look. -/
def rules : Look → List String
  | pattern => ["alphanum", "token", "hex", "base64", "dataUri", "regex", "pattern"]
  | format => ["ip", "uri", "guid", "uuid", "hostname", "email", "isoDate"]

/-- **A rule says a look**: to whatever fragment, it alone would give the keyword of the look with this
text, and nothing else. -/
structure Says (look : Look) (settings : Settings) (flags : Flags) (rule : Rule) (text : String) :
    Prop where
  name : rule.name ∈ look.rules
  alone : ∀ f, Keywords.applyStringRule settings flags f rule =
    .ok (f.insert look.keyword (.string text))

/-- The last rule that says a look, with those behind it. -/
abbrev LastSaying (look : Look) (rules : List Rule) (rule : Rule) (behind : List Rule) : Prop :=
  IsLast (fun rule => rule.name ∈ look.rules) rules rule behind

theorem keyword_mem_ownKeywords (look : Look) : look.keyword ∈ Kind.string.ownKeywords := by
  cases look <;> decide

theorem eq_of_keyword_eq {look other : Look} (h : look.keyword = other.keyword) : look = other := by
  cases look <;> cases other <;> first | rfl | exact absurd h (by decide)

/-- No rule says both looks. -/
theorem eq_of_mem_rules {look other : Look} {name : String} (h : name ∈ look.rules)
    (h' : name ∈ other.rules) : look = other := by
  have hdisjoint : ∀ name ∈ pattern.rules, name ∉ format.rules := by decide
  cases look <;> cases other
  · rfl
  · exact absurd h' (hdisjoint name h)
  · exact absurd h (hdisjoint name h')
  · rfl

theorem mem_lookRules {look : Look} {name : String} (h : name ∈ look.rules) :
    name ∈ Keywords.lookRules := by
  cases look
  · exact (by decide : pattern.rules ⊆ Keywords.lookRules) h
  · exact (by decide : format.rules ⊆ Keywords.lookRules) h

end Look

namespace Keywords

variable {settings : Settings} {flags : Flags} {rule last : Rule} {rules behind : List Rule}
  {f g : Fragment} {look : Look} {text : String}

/-! ## One rule -/

theorem exists_look_of_look? {m : String × Json} (h : look? settings flags rule = some (.ok m)) :
    ∃ look : Look, ∃ text, rule.name ∈ look.rules ∧ m = (look.keyword, .string text) := by
  unfold look? at h
  split at h
  case h_1 hname | h_2 hname | h_3 hname | h_4 hname | h_5 hname =>
    cases h
    exact ⟨.pattern, _, by rw [hname]; decide, rfl⟩
  case h_6 hname | h_7 hname | h_8 hname | h_9 hname | h_10 hname | h_11 hname | h_12 hname =>
    cases h
    exact ⟨.format, _, by rw [hname]; decide, rfl⟩
  case h_13 hname | h_14 hname =>
    obtain ⟨text, -, rfl⟩ := exists_ok_of_map (Option.some.inj h)
    exact ⟨.pattern, text, by rw [hname]; decide, rfl⟩
  case h_15 => cases h

/-- **What a rule of a string can do**: it writes a look that it says, or limits of the length. -/
theorem applyStringRule_cases (h : applyStringRule settings flags f rule = .ok g) :
    (∃ look : Look, ∃ text, look.Says settings flags rule text ∧
      g = f.insert look.keyword (.string text)) ∨
    (∀ look : Look, rule.name ∉ look.rules) ∧ f.Gains ["minLength", "maxLength"] g := by
  by_cases hsize : rule.name ∈ sizeRules
  · have hdisjoint : ∀ name ∈ sizeRules, name ∉ lookRules := by decide
    refine .inr ⟨fun look hname => hdisjoint _ hsize (Look.mem_lookRules hname), ?_⟩
    rcases applyLimit?_cases lengthLimits "string" rule with hnone | ⟨apply, hwrites, hsome⟩
    · obtain ⟨set, hset⟩ := applyLimit?_of_mem hsize lengthLimits "string" f
      rw [hnone] at hset
      cases hset
    · rw [applyStringRule, hsome] at h
      exact hwrites.gains h
  · rw [applyStringRule, applyLimit?_of_not_mem hsize] at h
    cases hlook : look? settings flags rule with
    | some x =>
      rw [hlook] at h
      obtain ⟨m, rfl, rfl⟩ := exists_ok_of_map h
      obtain ⟨look, text, hname, rfl⟩ := exists_look_of_look? hlook
      refine .inl ⟨look, text, ⟨hname, fun f => ?_⟩, rfl⟩
      rw [applyStringRule, applyLimit?_of_not_mem hsize, hlook]
      rfl
    | none =>
      rw [hlook] at h
      refine .inr ⟨fun look hname => ?_, (writes_skipRule _ settings "string" rule).gains h⟩
      have hknown := isSome_look? settings flags rule
      rw [hlook] at hknown
      exact Bool.false_ne_true (hknown.2 (Look.mem_lookRules hname))

theorem exists_text (h : applyStringRule settings flags f rule = .ok g)
    (hname : rule.name ∈ look.rules) : ∃ text, look.Says settings flags rule text := by
  rcases applyStringRule_cases h with ⟨other, text, hsaid, -⟩ | ⟨hnone, -⟩
  · obtain rfl := Look.eq_of_mem_rules hname hsaid.name
    exact ⟨text, hsaid⟩
  · exact absurd hname (hnone look)

/-- A rule that does not say a look leaves its keyword alone. -/
theorem keeps_applyStringRule (look : Look) (f : Fragment) (rule : Rule) (g : Fragment)
    (hname : rule.name ∉ look.rules) (h : applyStringRule settings flags f rule = .ok g) :
    g.get? look.keyword = f.get? look.keyword := by
  rcases applyStringRule_cases h with ⟨other, text, hsaid, rfl⟩ | ⟨-, hgains⟩
  · refine f.get?_insert_of_ne (fun hkeyword => hname ?_) _
    rw [← Look.eq_of_keyword_eq hkeyword]
    exact hsaid.name
  · exact hgains.get?_of_not_mem (by cases look <;> decide)

/-! ## A list of rules -/

/-- **The last rule that says a look** has its keyword. -/
theorem get?_of_lastSaying (h : rules.foldlM (applyStringRule settings flags) f = .ok g)
    (hlast : look.LastSaying rules last behind) (hsaid : look.Says settings flags last text) :
    g.get? look.keyword = some (.string text) := by
  obtain ⟨f₁, f₂, hrule, hget⟩ := hlast.observe_eq (fun f : Fragment => f.get? look.keyword)
    (keeps_applyStringRule look) h
  cases hrule.symm.trans (hsaid.alone f₁)
  exact hget.trans (f₁.get?_insert_self _ _)

theorem get?_of_not_said (h : rules.foldlM (applyStringRule settings flags) f = .ok g)
    (hnone : ∀ rule ∈ rules, rule.name ∉ look.rules) :
    g.get? look.keyword = f.get? look.keyword :=
  foldlM_keeps (fun f : Fragment => f.get? look.keyword) (keeps_applyStringRule look) hnone h

theorem exists_text_of_mem (h : rules.foldlM (applyStringRule settings flags) f = .ok g)
    (hmem : rule ∈ rules) (hname : rule.name ∈ look.rules) :
    ∃ text, look.Says settings flags rule text := by
  obtain ⟨before, behind, rfl⟩ := List.append_of_mem hmem
  obtain ⟨f₁, -, hrest⟩ := foldlM_append_ok h
  obtain ⟨f₂, hrule, -⟩ := foldlM_cons_ok hrest
  exact exists_text hrule hname

/-- **Nothing is written over** if and only if all rules that say a look say the same. -/
theorem all_said_iff (h : rules.foldlM (applyStringRule settings flags) f = .ok g) :
    (∀ rule ∈ rules, ∀ text, look.Says settings flags rule text →
        g.get? look.keyword = some (.string text)) ↔
      ∀ rule ∈ rules, ∀ other ∈ rules, ∀ text text', look.Says settings flags rule text →
        look.Says settings flags other text' → text = text' := by
  constructor
  · intro hall rule hrule other hother text text' hsaid hsaid'
    have htext := (hall rule hrule text hsaid).symm.trans (hall other hother text' hsaid')
    cases htext
    rfl
  · intro hsame rule hrule text hsaid
    obtain ⟨last, behind, hlast⟩ :=
      IsLast.exists_of_mem (p := fun rule => rule.name ∈ look.rules) ⟨rule, hrule, hsaid.name⟩
    obtain ⟨text', hsaid'⟩ := exists_text_of_mem h hlast.mem hlast.holds
    rw [get?_of_lastSaying h hlast hsaid', hsame rule hrule last hlast.mem text text' hsaid hsaid']

end Keywords

/-! ## A string -/

/-- A string writes its type and then what its rules say. -/
theorem Kind.string_of_run {settings : Settings} {t : Traits} {below : Below} {f g : Fragment}
    {r s : Registry} (h : (Kind.string.convert settings t below f).run r = (.ok g, s)) :
    t.rules.foldlM (Keywords.applyStringRule settings t.flags)
      (f.insert "type" (.string "string")) = .ok g := by
  obtain ⟨hstring, -⟩ := Conversion.eq_of_lift_ok h
  rw [Keywords.applyString] at hstring
  cases hflags : Keywords.refusedStringFlag? t.flags with
  | some construct =>
    rw [hflags] at hstring
    cases hstring
  | none =>
    rw [hflags] at hstring
    exact hstring

namespace Description

variable {o : Options} {d : Description} {r r' : Registry} {result : Option Json}

/-- **The looks of a string.**  Every rule that says a look has a text for it.  Under the keyword of the
look stands the text of the last of them, and there is no keyword when there are none; so no rule is
written over if and only if all that say the look say the same. -/
theorem convert_looks (hkind : o.resolve d.typeName = some (.inr .string)) (hopen : d.IsOpen o r)
    (h : (d.convert o).run r = (.ok result, r')) :
    ∃ ms, Output o d .string r ms result r' ∧ ∀ look : Look,
      (∀ rule ∈ d.rules, rule.name ∈ look.rules →
        ∃ text, look.Says o.toSettings d.flags rule text) ∧
      (∀ last behind text, look.LastSaying d.rules last behind →
        look.Says o.toSettings d.flags last text →
        Members.get? ms look.keyword = some (.string text)) ∧
      ((∀ rule ∈ d.rules, rule.name ∉ look.rules) → Members.get? ms look.keyword = none) ∧
      ((∀ rule ∈ d.rules, ∀ text, look.Says o.toSettings d.flags rule text →
          Members.get? ms look.keyword = some (.string text)) ↔
        ∀ rule ∈ d.rules, ∀ other ∈ d.rules, ∀ text text',
          look.Says o.toSettings d.flags rule text →
          look.Says o.toSettings d.flags other text' → text = text') := by
  obtain ⟨g, s, ms, hrun, houtput, hlookup⟩ := output_of_run hkind (by decide) hopen h
  have hrules := Kind.string_of_run hrun
  refine ⟨ms, houtput, fun look => ?_⟩
  rw [hlookup _ look.keyword_mem_ownKeywords]
  refine ⟨fun _ => Keywords.exists_text_of_mem hrules, fun _ _ _ => Keywords.get?_of_lastSaying hrules,
    fun hnone => ?_, Keywords.all_said_iff hrules⟩
  rw [Keywords.get?_of_not_said hrules hnone, Fragment.get?_insert_of_ne]
  · exact d.get?_commonFragment look.keyword_mem_ownKeywords
  · cases look <;> decide

/-- Two patterns, the second of which is a literal, and two names for one format, between them: nothing
of the format is written over. -/
theorem convert_looks_mixed :
    let d : Description :=
      { typeName := "string"
        rules :=
          [{ name := "alphanum" }, { name := "guid" },
           { name := "regex", arg := .object [("pattern", .string "/^x$/i")] }, { name := "uuid" }] }
    ({} : Options).resolve d.typeName = some (.inr .string) ∧ d.IsOpen {} {} ∧
    ∃ result r' ms, (d.convert {}).run {} = (.ok result, r') ∧
      Output {} d .string {} ms result r' ∧
      Members.get? ms "pattern" = some (.string "^x$") ∧
      Members.get? ms "format" = some (.string "uuid") ∧
      ∀ rule ∈ d.rules, ∀ text, Look.format.Says {} d.flags rule text →
        Members.get? ms "format" = some (.string text) := by
  intro d
  have hkind : ({} : Options).resolve d.typeName = some (.inr .string) := rfl
  have hopen : d.IsOpen {} {} := fun _ _ => List.not_mem_nil
  obtain ⟨result, r', hrun⟩ : ∃ result r', (d.convert {}).run {} = (.ok result, r') := ⟨_, _, rfl⟩
  obtain ⟨ms, houtput, hlooks⟩ := convert_looks hkind hopen hrun
  obtain ⟨-, hpattern, -, -⟩ := hlooks .pattern
  obtain ⟨-, hformat, -, hall⟩ := hlooks .format
  have huuid : ∀ rule ∈ d.rules, ∀ text, Look.format.Says {} d.flags rule text → text = "uuid" := by
    intro rule hrule text hsaid
    simp only [d, List.mem_cons, List.not_mem_nil, or_false] at hrule
    rcases hrule with rfl | rfl | rfl | rfl
    · exact absurd hsaid.name (by decide)
    · cases hsaid.alone {}
      rfl
    · exact absurd hsaid.name (by decide)
    · cases hsaid.alone {}
      rfl
  refine ⟨hkind, hopen, result, r', ms, hrun, houtput, ?_, ?_, hall.2 ?_⟩
  · exact hpattern _ _ _ ⟨⟨[_, _], rfl⟩, by decide, by decide⟩ ⟨by decide, fun _ => by rfl⟩
  · exact hformat _ [] _ ⟨⟨[_, _, _], rfl⟩, by decide, by decide⟩ ⟨by decide, fun _ => rfl⟩
  · intro rule hrule other hother text text' hsaid hsaid'
    rw [huuid rule hrule text hsaid, huuid other hother text' hsaid']

/-- **A pattern is lost** to a later one. -/
theorem convert_looks_lost :
    let first : Rule := { name := "alphanum" }
    let d : Description := { typeName := "string", rules := [first, { name := "hex" }] }
    ∃ text ms, Look.pattern.Says {} d.flags first text ∧
      ((d.convert {}).run {}).1 = .ok (some (.object ms)) ∧
      Members.get? ms "pattern" ≠ some (.string text) := by
  intro first d
  refine ⟨"^[a-zA-Z0-9]+$", [("type", .string "string"), ("pattern", .string "^[a-fA-F0-9]+$")],
    ⟨by decide, fun _ => rfl⟩, rfl, ?_⟩
  simp [Members.get?]

end Description
end Schemata
