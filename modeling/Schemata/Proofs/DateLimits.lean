import Schemata.Proofs.Folds
import Schemata.Proofs.Output
import Schemata.Proofs.Rendering
/-!
# Date limits — one text for one instant

A date limit is whole milliseconds or a text in one of two forms, and it is written as the text of the
instant it names: by a rule over whatever fragment, and so by a date with such a rule
(`Keywords.LimitWritten`).  So arguments that name one instant are written alike, and within the years of
four digits the limits are ordered as their texts are (`Keywords.date_limits_in_order`): whoever compares
the texts compares the instants.

What is written is itself a limit if the year of the instant has four digits, and then it stays as it is.
The full form has no other years; milliseconds, a date alone or a zone can lead to one, and then the text,
whose year has a sign, is refused as a limit (`Keywords.date_limit_again`,
`Keywords.date_limit_again_signed`).
-/
namespace Schemata

namespace Number

/-- A whole number, as it is written without a point. -/
def whole (n : Int) : Number :=
  if 0 ≤ n then .natural (UInt64.ofNat n.toNat)
  else .negative ⟨(-n - 1).toNat % negatives, Nat.mod_lt _ (by decide)⟩

theorem int64?_whole {n : Int} (hle : -9223372036854775808 ≤ n) (hlt : n < 9223372036854775808) :
    (whole n).int64? = some n := by
  unfold whole
  split
  · have hnat : (UInt64.ofNat n.toNat).toNat = n.toNat := by
      rw [UInt64.toNat_ofNat']
      omega
    rw [int64?, hnat, if_pos (by unfold negatives; omega)]
    congr 1
    omega
  · have hmod : (-n - 1).toNat % negatives = (-n - 1).toNat :=
      Nat.mod_eq_of_lt (by unfold negatives; omega)
    simp only [int64?, hmod]
    congr 1
    omega

end Number

namespace Date

/-- The days of the years with four digits. -/
theorem bounds_of_year {n : Int} (h : 0 ≤ (ofDays n).year ∧ (ofDays n).year ≤ 9999) :
    -719529 < n ∧ n < 2932897 := by
  have hday := isDay_ofDays n
  have hfirst := IsDay.toDays_lt (d := ⟨-1, 12, 31⟩) (by constructor <;> decide) hday
    (.inl (Int.lt_of_lt_of_le (by decide) h.1))
  have hlast := hday.toDays_lt (e := ⟨10000, 1, 1⟩) (by constructor <;> decide)
    (.inl (Int.lt_of_le_of_lt h.2 (by decide)))
  rw [toDays_ofDays] at hfirst hlast
  exact ⟨hfirst, hlast⟩

end Date

namespace Instant

/-- Every text that is read names an instant of the clock. -/
theorem isInstant_of_read? {text : String} {i : Instant} (h : read? text = some i) :
    i.IsInstant := by
  rw [read?, Option.orElse_eq_orElse, Option.orElse_eq_or, Option.or_eq_some_iff] at h
  rcases h with h | ⟨-, h⟩
  · obtain ⟨t, ht, -, rfl⟩ := readFull?_eq_some_iff.1 h
    exact ht.isInstant
  · unfold readDate? at h
    obtain ⟨⟨year, cs₁⟩, -, h⟩ := Option.bind_eq_some_iff.1 h
    obtain ⟨cs₂, -, h⟩ := Option.bind_eq_some_iff.1 h
    obtain ⟨⟨month, cs₃⟩, -, h⟩ := Option.bind_eq_some_iff.1 h
    obtain ⟨cs₄, -, h⟩ := Option.bind_eq_some_iff.1 h
    obtain ⟨⟨day, cs₅⟩, -, h⟩ := Option.bind_eq_some_iff.1 h
    dsimp only at h
    split at h
    · cases h
      exact isInstant_ofDate _
    · cases h

theorem ofMillis?_of_year {millis : Int}
    (h : 0 ≤ (atMillis millis).year ∧ (atMillis millis).year ≤ 9999) :
    ofMillis? millis = some (atMillis millis) := by
  have hvalid : (Date.ofDays (atMillis millis).day).isValid = true := by
    refine (Date.isValid_iff _).2 ⟨?_, ?_, Date.isDay_ofDays _⟩
    · exact Int.le_trans (by decide) h.1
    · exact Int.le_trans h.2 (by decide)
  rw [ofMillis?_eq, if_pos hvalid]

/-- Milliseconds in order are instants in order. -/
theorem atMillis_before {m n : Int} (h : m < n) : (atMillis m).Before (atMillis n) := by
  unfold Before atMillis
  dsimp only
  omega

theorem ofDate_eq_atMillis (d : Date) : ofDate d = atMillis (d.toDays * 86400000) := by
  unfold ofDate atMillis
  rw [Instant.mk.injEq]
  refine ⟨?_, ?_, ?_⟩ <;> omega

end Instant

namespace Keywords

/-- The last rule that sets a limit under a keyword, with those behind it. -/
abbrev LastLimiting (keyword : String) (rules : List Rule) (rule : Rule) (behind : List Rule) : Prop :=
  IsLast (fun rule => dateKeyword? rule.name = some keyword) rules rule behind

/-- **A date limit with this argument is written as this text**, by every rule that sets one.  A date
whose only rule it is has the limit behind its type and its format, and a date of more rules has it
if no rule behind sets the same limit. -/
structure LimitWritten (arg : Json) (text : String) : Prop where
  rule : ∀ settings rule keyword f, dateKeyword? rule = some keyword →
    applyDateRule settings f ⟨rule, arg⟩ = .ok (f.insert keyword (.string text))
  alone : ∀ settings rule keyword (t : Traits) below f r, dateKeyword? rule = some keyword →
    t.rules = [⟨rule, arg⟩] → t.flags.timestamp = false →
    (Kind.date.convert settings t below f).run r =
      (.ok (((f.insert "type" (.string "string")).insert "format" (.string "date-time")).insert keyword
        (.string text)), r)
  last : ∀ settings rule keyword (t : Traits) behind below f g r s,
    LastLimiting keyword t.rules ⟨rule, arg⟩ behind →
    (Kind.date.convert settings t below f).run r = (.ok g, s) →
    g.get? keyword = some (.string text)

/-! ## One rule -/

section Rules

variable {settings : Settings} {rule keyword : String} {arg : Json} {i : Instant}

/-- A limit that names an instant is written as the text of the instant. -/
theorem applyDateRule_of_some (hrule : dateKeyword? rule = some keyword)
    (h : limitInstant? arg = some i) (f : Fragment) :
    applyDateRule settings f ⟨rule, arg⟩ = .ok (f.insert keyword (.string i.render)) := by
  rw [applyDateRule, hrule]
  dsimp only
  rw [dateLimit, h]
  rfl

/-- A limit that names no instant is refused, with its rule and its argument. -/
theorem applyDateRule_of_none (hrule : dateKeyword? rule = some keyword)
    (h : limitInstant? arg = none) (f : Fragment) :
    applyDateRule settings f ⟨rule, arg⟩ = .error (refusal "date" ⟨rule, arg⟩) := by
  rw [applyDateRule, hrule]
  dsimp only
  rw [dateLimit, h]
  rfl

/-- A rule that sets another limit, or none, leaves a keyword alone. -/
theorem keeps_applyDateRule (keyword : String) (f : Fragment) (rule : Rule) (g : Fragment)
    (hrule : ¬dateKeyword? rule.name = some keyword) (h : applyDateRule settings f rule = .ok g) :
    g.get? keyword = f.get? keyword := by
  unfold applyDateRule at h
  cases hk : dateKeyword? rule.name with
  | none =>
    rw [hk] at h
    rw [skipRule_ok h]
  | some other =>
    rw [hk] at h
    obtain ⟨limit, -, rfl⟩ := exists_ok_of_map h
    exact f.get?_insert_of_ne (fun hother => hrule (hk.trans (congrArg some hother))) limit

end Rules

/-! ## A date -/

section Dates

variable {settings : Settings} {t : Traits} {below : Below} {f g : Fragment} {r s : Registry}

theorem run_date (htimestamp : t.flags.timestamp = false) :
    (Kind.date.convert settings t below f).run r =
      (t.rules.foldlM (applyDateRule settings)
        ((f.insert "type" (.string "string")).insert "format" (.string "date-time")), r) := by
  rw [Kind.convert, Conversion.run_lift, applyDate, htimestamp]
  rfl

/-- A date that is converted is no timestamp, and went through its rules. -/
theorem date_of_run (h : (Kind.date.convert settings t below f).run r = (.ok g, s)) :
    t.flags.timestamp = false ∧ t.rules.foldlM (applyDateRule settings)
      ((f.insert "type" (.string "string")).insert "format" (.string "date-time")) = .ok g := by
  cases htimestamp : t.flags.timestamp with
  | true =>
    rw [Kind.convert, Conversion.run_lift, applyDate, htimestamp] at h
    cases h
  | false =>
    rw [run_date htimestamp] at h
    exact ⟨rfl, congrArg Prod.fst h⟩

variable {one other : Rule} {before behind : List Rule}

/-- Rules that do the same can stand for each other. -/
theorem convert_date_congr (hsame : ∀ f, applyDateRule settings f other = applyDateRule settings f one)
    (hrules : t.rules = before ++ one :: behind) :
    Kind.date.convert settings { t with rules := before ++ other :: behind } below =
      Kind.date.convert settings t below := by
  funext f
  simp only [Kind.convert, applyDate, hrules, List.foldlM_append, List.foldlM_cons, hsame]

/-- A rule that is refused is refused behind the rules that were not. -/
theorem convert_date_refused {e : ConvertError}
    (hrefused : ∀ f, applyDateRule settings f other = .error e)
    (hrules : t.rules = before ++ one :: behind)
    (h : (Kind.date.convert settings t below f).run r = (.ok g, s)) :
    (Kind.date.convert settings { t with rules := before ++ other :: behind } below f).run r =
      (.error e, r) := by
  obtain ⟨htimestamp, hfold⟩ := date_of_run h
  rw [hrules] at hfold
  obtain ⟨f₁, hbefore, -⟩ := foldlM_append_ok hfold
  rw [run_date (t := { t with rules := before ++ other :: behind }) htimestamp, List.foldlM_append,
    hbefore]
  change ((other :: behind).foldlM (applyDateRule settings) f₁, r) = _
  rw [List.foldlM_cons, hrefused]
  rfl

end Dates

theorem limitWritten_render {arg : Json} {i : Instant} (h : limitInstant? arg = some i) :
    LimitWritten arg i.render where
  rule := fun _ _ _ f hrule => applyDateRule_of_some hrule h f
  alone := by
    intro settings rule keyword t below f r hrule hrules htimestamp
    rw [run_date htimestamp, hrules, List.foldlM_cons, applyDateRule_of_some hrule h]
    rfl
  last := by
    intro settings rule keyword t behind below f g r s hlast hrun
    obtain ⟨f₁, f₂, hrule, hget⟩ := hlast.observe_eq (fun f : Fragment => f.get? keyword)
      (keeps_applyDateRule keyword) (date_of_run hrun).2
    rw [applyDateRule_of_some hlast.holds h] at hrule
    cases hrule
    exact hget.trans (f₁.get?_insert_self _ _)

theorem isInstant_of_limitInstant? {arg : Json} {i : Instant} (h : limitInstant? arg = some i) :
    i.IsInstant := by
  cases arg with
  | number x =>
    obtain ⟨millis, -, h⟩ := Option.bind_eq_some_iff.1 h
    rw [Instant.ofMillis?_eq] at h
    split at h
    · cases h
      exact Instant.isInstant_atMillis millis
    · cases h
  | string text => exact Instant.isInstant_of_read? h
  | null | bool | array | object => cases h

theorem limitInstant?_whole {millis : Int}
    (h : 0 ≤ (Instant.atMillis millis).year ∧ (Instant.atMillis millis).year ≤ 9999) :
    limitInstant? (.number (.whole millis)) = some (Instant.atMillis millis) := by
  obtain ⟨hfirst, hlast⟩ := Date.bounds_of_year h
  have hday : (Instant.atMillis millis).day = millis / 86400000 := rfl
  rw [hday] at hfirst hlast
  rw [limitInstant?, Number.int64?_whole (by omega) (by omega), Option.bind_some,
    Instant.ofMillis?_of_year h]

/-- **Date limits are ordered as their texts are.**  Milliseconds of a year with four digits are written
as a text that comes before those of all later ones; and a text in either form that names the same
millisecond, in whatever zone, is written as the same text. -/
theorem date_limits_in_order {millis : Int}
    (h : 0 ≤ (Instant.atMillis millis).year ∧ (Instant.atMillis millis).year ≤ 9999) :
    ∃ text, LimitWritten (.number (.whole millis)) text ∧
      (∀ later, millis < later →
        0 ≤ (Instant.atMillis later).year ∧ (Instant.atMillis later).year ≤ 9999 →
        ∃ text', LimitWritten (.number (.whole later)) text' ∧ text < text') ∧
      (∀ t : Timestamp, t.IsTimestamp → t.second ≤ 59 → t.millis = millis →
        LimitWritten (.string (String.ofList t.text)) text) ∧
      (∀ d : Date, d.IsDay → 0 ≤ d.year ∧ d.year ≤ 9999 → d.toDays * 86400000 = millis →
        LimitWritten (.string (String.ofList d.text)) text) := by
  refine ⟨(Instant.atMillis millis).render, limitWritten_render (limitInstant?_whole h),
    fun later hlater h' => ?_, fun t ht hleap hmillis => ?_, fun d hd hyear hmillis => ?_⟩
  · exact ⟨_, limitWritten_render (limitInstant?_whole h'),
      Instant.render_lt (Instant.isInstant_atMillis _) (Instant.isInstant_atMillis _) h h'
        (Instant.atMillis_before hlater)⟩
  · refine limitWritten_render ?_
    have hfull : Instant.readFull? t.text = some t.instant :=
      Instant.readFull?_eq_some_iff.2 ⟨t, ht, rfl, rfl⟩
    rw [limitInstant?, Instant.read?, String.toList_ofList, hfull, Timestamp.instant_eq ht hleap, hmillis]
    rfl
  · refine limitWritten_render ?_
    rw [limitInstant?, Instant.read?_dateText hd hyear, Instant.ofDate_eq_atMillis, hmillis]

/-- The start of a leap day, a millisecond later, by clocks that are ahead, and as a date. -/
theorem date_limits_in_order_leap_day :
    (0 ≤ (Instant.atMillis 951782400000).year ∧ (Instant.atMillis 951782400000).year ≤ 9999) ∧
    ∃ text text', LimitWritten (.number (.whole 951782400000)) text ∧
      LimitWritten (.number (.whole 951782400001)) text' ∧ text < text' ∧
      LimitWritten (.string "2000-02-29T05:45:00.0009+05:45") text ∧
      LimitWritten (.string "2000-02-29") text := by
  have hyear : 0 ≤ (Instant.atMillis 951782400000).year ∧
      (Instant.atMillis 951782400000).year ≤ 9999 := by decide
  obtain ⟨text, hwritten, horder, hfull, hdate⟩ := date_limits_in_order hyear
  obtain ⟨text', hwritten', hlt⟩ := horder 951782400001 (by decide) (by decide)
  refine ⟨hyear, text, text', hwritten, hwritten', hlt, ?_, ?_⟩
  · have hdigits : ∀ c ∈ "0009".toList, c.isDigit = true := List.all_eq_true.1 rfl
    refine hfull ⟨⟨2000, 2, 29⟩, 'T', 5, 45, 0, "0009".toList, .offset '+' 5 45⟩ ?_ (by decide)
      (by decide)
    exact ⟨by constructor <;> decide, by decide, .inl rfl, by decide, by decide, by decide, hdigits,
      .inl rfl, by decide, by decide⟩
  · exact hdate ⟨2000, 2, 29⟩ (by constructor <;> decide) (by decide) (by decide)

/-- **A date limit that was written is a limit again.**  Whatever the argument was, if the year of its
instant has four digits then the text is accepted by the same rule and stays as it is, and if not then
the text is refused.  So a date may have the text in place of the argument, wherever the rule stands: in
the first case it is converted as it was, and in the second it is refused if it was not before. -/
theorem date_limit_again {settings : Settings} {rule keyword : String}
    (hrule : dateKeyword? rule = some keyword) {arg : Json} {f g : Fragment}
    (h : applyDateRule settings f ⟨rule, arg⟩ = .ok g) :
    ∃ i : Instant, limitInstant? arg = some i ∧ g = f.insert keyword (.string i.render) ∧
      LimitWritten arg i.render ∧
      (0 ≤ i.year ∧ i.year ≤ 9999 → LimitWritten (.string i.render) i.render) ∧
      (¬ (0 ≤ i.year ∧ i.year ≤ 9999) → ∀ f, applyDateRule settings f ⟨rule, .string i.render⟩ =
        .error (refusal "date" ⟨rule, .string i.render⟩)) ∧
      ∀ (t : Traits) before behind below, t.rules = before ++ ⟨rule, arg⟩ :: behind →
        let again : Traits := { t with rules := before ++ ⟨rule, .string i.render⟩ :: behind }
        (0 ≤ i.year ∧ i.year ≤ 9999 →
          Kind.date.convert settings again below = Kind.date.convert settings t below) ∧
        (¬ (0 ≤ i.year ∧ i.year ≤ 9999) → ∀ f g r s,
          (Kind.date.convert settings t below f).run r = (.ok g, s) →
          (Kind.date.convert settings again below f).run r =
            (.error (refusal "date" ⟨rule, .string i.render⟩), r)) := by
  cases hi : limitInstant? arg with
  | none =>
    rw [applyDateRule_of_none hrule hi] at h
    cases h
  | some i =>
    rw [applyDateRule_of_some hrule hi] at h
    cases h
    have hagain : 0 ≤ i.year ∧ i.year ≤ 9999 → limitInstant? (.string i.render) = some i :=
      Instant.read?_render (isInstant_of_limitInstant? hi)
    have hrefused : ¬ (0 ≤ i.year ∧ i.year ≤ 9999) → ∀ f,
        applyDateRule settings f ⟨rule, .string i.render⟩ =
          .error (refusal "date" ⟨rule, .string i.render⟩) :=
      fun hyear => applyDateRule_of_none hrule (Instant.read?_render_eq_none hyear)
    refine ⟨i, rfl, rfl, limitWritten_render hi, fun hyear => limitWritten_render (hagain hyear),
      hrefused, fun t before behind below hrules => ⟨fun hyear => ?_, fun hyear f g r s hrun => ?_⟩⟩
    · refine convert_date_congr (fun f => ?_) hrules
      rw [applyDateRule_of_some hrule (hagain hyear), applyDateRule_of_some hrule hi]
    · exact convert_date_refused (hrefused hyear) hrules hrun

/-- A leap second by clocks that are ahead is written by the clock of UTC, and is then a limit again, by
itself and behind another rule. -/
theorem date_limit_again_leap_second :
    let one : Rule := ⟨"min", .number (.whole 0)⟩
    let below : Below := ⟨pure [], pure [], pure none, pure none, pure []⟩
    applyDateRule {} {} ⟨"max", .string "2020-06-15T10:20:60+05:30"⟩ =
      .ok (Fragment.insert {} "formatMaximum" (.string "2020-06-15T04:50:60.000Z")) ∧
    applyDateRule {} {} ⟨"max", .string "2020-06-15T04:50:60.000Z"⟩ =
      .ok (Fragment.insert {} "formatMaximum" (.string "2020-06-15T04:50:60.000Z")) ∧
    Kind.date.convert {} { rules := [one, ⟨"max", .string "2020-06-15T04:50:60.000Z"⟩] } below =
      Kind.date.convert {} { rules := [one, ⟨"max", .string "2020-06-15T10:20:60+05:30"⟩] } below := by
  intro one below
  have hlimit : limitInstant? (.string "2020-06-15T10:20:60+05:30") = some ⟨18428, 17459, 1000⟩ := by
    rfl
  have hwritten : applyDateRule {} {} ⟨"max", .string "2020-06-15T10:20:60+05:30"⟩ =
      .ok (Fragment.insert {} "formatMaximum" (.string "2020-06-15T04:50:60.000Z")) := by rfl
  have hrule : dateKeyword? "max" = some "formatMaximum" := by rfl
  obtain ⟨i, hi, -, -, hagain, -, hdate⟩ := date_limit_again hrule hwritten
  obtain rfl : Instant.mk 18428 17459 1000 = i := Option.some.inj (hlimit.symm.trans hi)
  have hrender : (Instant.mk 18428 17459 1000).render = "2020-06-15T04:50:60.000Z" := by rfl
  rw [hrender] at hagain hdate
  have hyear : 0 ≤ (Instant.mk 18428 17459 1000).year ∧ (Instant.mk 18428 17459 1000).year ≤ 9999 := by
    decide
  have hdate := hdate { rules := [one, ⟨"max", .string "2020-06-15T10:20:60+05:30"⟩] } [one] [] below rfl
  exact ⟨hwritten, (hagain hyear).rule _ _ _ _ hrule, hdate.1 hyear⟩

/-- **A text that was written is refused**, by a rule and by a date with that rule: the milliseconds lead
to the year 10000. -/
theorem date_limit_again_signed :
    let written := Fragment.insert {} "formatMinimum" (.string "+10000-01-01T00:00:00.000Z")
    let date (arg : Json) := (Kind.date.convert {} { rules := [⟨"min", arg⟩] }
      ⟨pure [], pure [], pure none, pure none, pure []⟩ {}).run {}
    applyDateRule {} {} ⟨"min", .number (.whole 253402300800000)⟩ = .ok written ∧
    applyDateRule {} {} ⟨"min", .string "+10000-01-01T00:00:00.000Z"⟩ ≠ .ok written ∧
    (∃ g, date (.number (.whole 253402300800000)) = (.ok g, {}) ∧
      g.get? "formatMinimum" = some (.string "+10000-01-01T00:00:00.000Z")) ∧
    ∃ e, date (.string "+10000-01-01T00:00:00.000Z") = (.error e, {}) := by
  refine ⟨rfl, fun h => ?_, ⟨_, rfl, rfl⟩, ⟨_, rfl⟩⟩
  cases h

end Keywords
end Schemata
