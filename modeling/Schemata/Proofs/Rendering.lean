import Schemata.Proofs.Timestamp
/-!
# Rendering — the text of an instant

The text of an instant whose year has four digits is a timestamp (`Instant.render_eq`), the one that names
it; so the text is read as the instant (`Instant.read?_render`), leap seconds included, and texts come in
the order of the instants (`Instant.render_lt`).  The text of an instant of any other year starts with a
sign, and neither form knows a signed year with a time behind it (`Instant.read?_render_eq_none`).
-/
namespace Schemata
namespace Instant

/-- The year of an instant in universal time. -/
def year (i : Instant) : Int := (Date.ofDays i.day).year

/-- **An instant of the clock**: the seconds are those of a day, and a leap second goes on with the last
second of a minute. -/
structure IsInstant (i : Instant) : Prop where
  second : i.second < 86400
  milli : i.milli < 2000
  leap : 1000 ≤ i.milli → i.second % 60 = 59

theorem isInstant_atMillis (millis : Int) : (atMillis millis).IsInstant := by
  constructor <;> unfold atMillis <;> dsimp only <;> omega

theorem isInstant_ofDate (d : Date) : (ofDate d).IsInstant :=
  ⟨Nat.succ_pos _, Nat.succ_pos _, fun h => absurd h (Nat.not_succ_le_zero _)⟩

/-- A zone moves an instant by whole minutes. -/
theorem IsInstant.behind {i : Instant} (h : i.IsInstant) (minutes : Int) :
    (i.behind minutes).IsInstant := by
  obtain ⟨hsecond, hmilli, hleap⟩ := h
  refine ⟨?_, hmilli, fun hmilli => ?_⟩
  · unfold Instant.behind
    dsimp only
    omega
  · have hlast := hleap hmilli
    unfold Instant.behind
    dsimp only
    omega

end Instant

theorem Timestamp.IsTimestamp.isInstant {t : Timestamp} (h : t.IsTimestamp) :
    t.instant.IsInstant := by
  have hhour := h.hour
  have hminute := h.minute
  have hsecond := h.second
  have hmilli := millisOf_lt h.fraction
  refine Instant.IsInstant.behind ⟨?_, ?_, fun hleap => ?_⟩ _
  all_goals dsimp only at *
  · split_ifs <;> omega
  · split_ifs <;> omega
  · split_ifs at hleap ⊢ <;> omega

/-- A text in the short form. -/
def Date.text (d : Date) : List Char :=
  Instant.padded 4 d.year.toNat ++ '-' :: (Instant.padded 2 d.month ++ '-' :: Instant.padded 2 d.day)

namespace Instant

/-! ## The timestamp of an instant -/

/-- **The timestamp of an instant**: universal time, to the millisecond. -/
def timestamp (i : Instant) : Timestamp where
  date := Date.ofDays i.day
  mark := 'T'
  hour := i.second / 3600
  minute := i.second / 60 % 60
  second := i.second % 60 + if 1000 ≤ i.milli then 1 else 0
  fraction := padded 3 (if 1000 ≤ i.milli then i.milli - 1000 else i.milli)
  zone := .universal 'Z'

theorem tail_timestamp (i : Instant) :
    i.timestamp.tail =
      '.' :: (padded 3 (if 1000 ≤ i.milli then i.milli - 1000 else i.milli) ++ ['Z']) := by
  rw [Timestamp.tail, timestamp, fractionText, if_neg (padded_ne_nil _ _)]
  rfl

theorem render_eq_yearText (i : Instant) :
    i.render = String.ofList (yearText i.year ++ '-' :: i.timestamp.afterYear) := by
  unfold render Timestamp.afterYear Timestamp.clock
  rw [tail_timestamp]
  simp [timestamp, year]

/-- The text of an instant is a timestamp if its year has four digits. -/
theorem render_eq {i : Instant} (h : 0 ≤ i.year ∧ i.year ≤ 9999) :
    i.render = String.ofList i.timestamp.text := by
  rw [render_eq_yearText, yearText, if_pos (by simpa using h)]
  rfl

theorem IsInstant.isTimestamp {i : Instant} (hi : i.IsInstant) (h : 0 ≤ i.year ∧ i.year ≤ 9999) :
    i.timestamp.IsTimestamp := by
  obtain ⟨hsecond, hmilli, hleap⟩ := hi
  refine ⟨Date.isDay_ofDays _, h, .inl rfl, ?_, ?_, ?_, fun c hc => isDigit_of_mem_padded hc, .inl rfl⟩
  · change i.second / 3600 ≤ 23
    omega
  · change i.second / 60 % 60 ≤ 59
    omega
  · change (i.second % 60 + if 1000 ≤ i.milli then 1 else 0) ≤ 60
    split_ifs <;> omega

theorem millisOf_padded {n : Nat} (h : n < 1000) : millisOf (padded 3 n) = n := by
  have hlength : (padded 3 n).length = 3 := length_padded h
  rw [millisOf, valueOf_padded, hlength]
  exact Nat.mul_div_cancel n (by decide)

/-- **The timestamp of an instant names it.** -/
theorem IsInstant.instant_timestamp {i : Instant} (hi : i.IsInstant) : i.timestamp.instant = i := by
  obtain ⟨hsecond, hmilli, hleap⟩ := hi
  obtain ⟨day, second, milli⟩ := i
  dsimp only at hsecond hmilli hleap
  have hfraction : millisOf (timestamp ⟨day, second, milli⟩).fraction =
      if 1000 ≤ milli then milli - 1000 else milli := by
    refine millisOf_padded ?_
    dsimp only
    split_ifs <;> omega
  rw [Timestamp.instant, hfraction]
  unfold timestamp Instant.behind Zone.ahead
  dsimp only
  rw [Date.toDays_ofDays, Instant.mk.injEq]
  by_cases h : 1000 ≤ milli
  · have hlast := hleap h
    simp only [if_pos h, hlast, Nat.reduceAdd, if_true]
    refine ⟨?_, ?_, ?_⟩ <;> omega
  · have hne : second % 60 + 0 ≠ 60 := by omega
    simp only [if_neg h, if_neg hne]
    refine ⟨?_, ?_, ?_⟩ <;> omega

/-! ## Reading what was written -/

theorem isBlank_of_isDigit {c : Char} (h : c.isDigit = true) : Blank.isBlank c = false := by
  have hc := toNat_of_isDigit h
  simp only [Blank.isBlank, Blank.ranges, List.any_cons, List.any_nil, Bool.or_eq_false_iff,
    Bool.and_eq_false_iff, decide_eq_false_iff_not, Bool.or_false]
  omega

/-- Numbers start with a digit. -/
theorem exists_padded (width n : Nat) :
    ∃ c ds, padded width n = c :: ds ∧ c.isDigit = true := by
  cases hds : padded width n with
  | nil => exact absurd hds (padded_ne_nil width n)
  | cons c ds => exact ⟨c, ds, rfl, isDigit_of_mem_padded (hds ▸ List.mem_cons_self)⟩

theorem trimStart_padded (width n : Nat) (cs : List Char) :
    Blank.trimStart (padded width n ++ cs) = padded width n ++ cs := by
  obtain ⟨c, ds, hds, hdigit⟩ := exists_padded width n
  rw [hds]
  exact List.dropWhile_cons_of_neg (by simp [isBlank_of_isDigit hdigit])

theorem dash_not_isDigit {cs : List Char} :
    ∀ c cs', '-' :: cs = c :: cs' → c.isDigit = false := by
  intro c cs' h
  cases h
  rfl

/-- A year of four digits has no sign. -/
theorem year?_padded {n : Nat} (h : n < 10000) (cs : List Char) :
    year? (padded 4 n ++ '-' :: cs) = some ((n : Int), '-' :: cs) := by
  have hnumber : number? 4 (padded 4 n ++ '-' :: cs) = some (n, '-' :: cs) :=
    number?_padded (le_of_eq (length_padded h)) dash_not_isDigit
  obtain ⟨c, ds, hds, hdigit⟩ := exists_padded 4 n
  rw [hds] at hnumber ⊢
  unfold year?
  split
  · rename_i heq
    cases heq
    cases hdigit
  · rename_i heq
    cases heq
    cases hdigit
  · rw [hnumber]
    rfl

/-- A year with a sign has any number of digits. -/
theorem year?_signed {sign : Char} (hsign : sign = '-' ∨ sign = '+') (n : Nat) (cs : List Char) :
    ∃ year, year? (sign :: (padded 4 n ++ '-' :: cs)) = some (year, '-' :: cs) := by
  have hnumber : number? (padded 4 n ++ '-' :: cs).length (padded 4 n ++ '-' :: cs) =
      some (n, '-' :: cs) :=
    number?_padded (by rw [List.length_append]; exact Nat.le_add_right _ _) dash_not_isDigit
  rcases hsign with rfl | rfl
  · exact ⟨-(n : Int), by rw [year?, hnumber]; rfl⟩
  · exact ⟨(n : Int), by rw [year?, hnumber]; rfl⟩

/-- **The text of an instant is read as the instant.** -/
theorem read?_render {i : Instant} (hi : i.IsInstant) (h : 0 ≤ i.year ∧ i.year ≤ 9999) :
    read? i.render = some i := by
  have hread : readFull? i.timestamp.text = some i :=
    readFull?_eq_some_iff.2 ⟨i.timestamp, hi.isTimestamp h, rfl, hi.instant_timestamp.symm⟩
  rw [read?, render_eq h, String.toList_ofList, hread]
  rfl

/-- No text in the short form is one in the full form. -/
theorem readFull?_dateText (d : Date) : readFull? d.text = none := by
  rw [Option.eq_none_iff_forall_ne_some]
  intro i hi
  obtain ⟨t, -, htext, -⟩ := readFull?_eq_some_iff.1 hi
  have hcolon : ':' ∈ d.text := by
    rw [htext, Timestamp.text, Timestamp.afterYear, Timestamp.clock]
    simp
  have hdigit : ∀ width n, ':' ∉ padded width n := fun width n hmem =>
    absurd (isDigit_of_mem_padded hmem) (by decide)
  simp [Date.text, hdigit] at hcolon

/-- A date is read behind its year, if nothing stands behind it. -/
theorem readDate?_of_year {cs rest : List Char} {year : Int} {month day : Nat}
    (hyear : year? (Blank.trimStart cs) =
      some (year, '-' :: (padded 2 month ++ '-' :: (padded 2 day ++ rest))))
    (hmonth : month < 100) (hday : day < 100) (hrest : ∀ c cs, rest = c :: cs → c.isDigit = false) :
    readDate? cs =
      if rest.isEmpty && (⟨year, month, day⟩ : Date).isValid then some (ofDate ⟨year, month, day⟩)
      else none := by
  have hmonth' : number? 2 (padded 2 month ++ '-' :: (padded 2 day ++ rest)) =
      some (month, '-' :: (padded 2 day ++ rest)) :=
    number?_padded (le_of_eq (length_padded hmonth)) dash_not_isDigit
  have hday' : number? 2 (padded 2 day ++ rest) = some (day, rest) :=
    number?_padded (le_of_eq (length_padded hday)) hrest
  unfold readDate?
  simp only [hyear, Option.bind_eq_bind, Option.bind_some, after?_eq_some_iff.2 rfl,
    trimStart_padded, hmonth', hday']

/-- **A date of a year with four digits is read as its first instant.** -/
theorem read?_dateText {d : Date} (hd : d.IsDay) (h : 0 ≤ d.year ∧ d.year ≤ 9999) :
    read? (String.ofList d.text) = some (ofDate d) := by
  have hmonth := hd.month_le
  have hday := hd.day_lt
  have hvalid : d.isValid = true :=
    d.isValid_iff.2 ⟨by unfold Date.firstYear; omega, by unfold Date.lastYear; omega, hd⟩
  have hnat : ((d.year.toNat : Nat) : Int) = d.year := Int.toNat_of_nonneg h.1
  have hyear : year? (Blank.trimStart d.text) =
      some (d.year, '-' :: (padded 2 d.month ++ '-' :: (padded 2 d.day ++ []))) := by
    rw [Date.text, trimStart_padded, year?_padded (by omega), hnat, List.append_nil]
  have hread : readDate? d.text = some (ofDate d) := by
    rw [readDate?_of_year hyear (by omega) (by omega) (fun _ _ h => by cases h),
      if_pos (by simpa using hvalid)]
  rw [read?, String.toList_ofList, readFull?_dateText, hread]
  rfl

/-- **The text of an instant of any other year is not read.** -/
theorem read?_render_eq_none {i : Instant} (h : ¬ (0 ≤ i.year ∧ i.year ≤ 9999)) :
    read? i.render = none := by
  have hday : i.timestamp.date.IsDay := Date.isDay_ofDays i.day
  have hmonth := hday.month_le
  have hday' := hday.day_lt
  obtain ⟨sign, hsign, htext⟩ : ∃ sign, (sign = '-' ∨ sign = '+') ∧
      i.render = String.ofList (sign :: (padded 4 i.year.natAbs ++ '-' :: i.timestamp.afterYear)) := by
    rw [render_eq_yearText, yearText, if_neg (by simpa using h)]
    exact ⟨_, ite_eq_or_eq _ _ _, rfl⟩
  rw [read?, htext, String.toList_ofList]
  generalize i.year.natAbs = n
  -- The full form starts with a digit.
  have hfull : readFull? (sign :: (padded 4 n ++ '-' :: i.timestamp.afterYear)) = none := by
    rw [Option.eq_none_iff_forall_ne_some]
    intro other hother
    obtain ⟨t, -, heq, -⟩ := readFull?_eq_some_iff.1 hother
    obtain ⟨c, ds, hds, hdigit⟩ := exists_padded 4 t.date.year.toNat
    rw [Timestamp.text, hds] at heq
    obtain ⟨rfl, -⟩ := List.cons.inj heq
    rcases hsign with rfl | rfl <;> cases hdigit
  -- The short form ends with the day.
  have hdate : readDate? (sign :: (padded 4 n ++ '-' :: i.timestamp.afterYear)) = none := by
    obtain ⟨year, hyear⟩ := year?_signed hsign n i.timestamp.afterYear
    have htrim : Blank.trimStart (sign :: (padded 4 n ++ '-' :: i.timestamp.afterYear)) =
        sign :: (padded 4 n ++ '-' :: i.timestamp.afterYear) := by
      refine List.dropWhile_cons_of_neg ?_
      rcases hsign with rfl | rfl <;> decide
    have hrest : ∀ c cs, 'T' :: i.timestamp.clock = c :: cs → c.isDigit = false := by
      rintro c cs heq
      cases heq
      rfl
    rw [← htrim] at hyear
    rw [readDate?_of_year hyear (by omega) (by omega) hrest]
    rfl
  rw [hfull, hdate]
  rfl

/-! ## Order -/

/-- One instant comes before another; a leap second is behind the second that it goes on with. -/
def Before (i j : Instant) : Prop :=
  i.day < j.day ∨
    i.day = j.day ∧ (i.second < j.second ∨ i.second = j.second ∧ i.milli < j.milli)

end Instant

namespace Timestamp

variable {t u : Timestamp}

theorem clock_lt (ht : t.IsTimestamp) (hu : u.IsTimestamp)
    (h : t.hour < u.hour ∨ t.hour = u.hour ∧ (t.minute < u.minute ∨ t.minute = u.minute ∧
      (t.second < u.second ∨ t.second = u.second ∧ t.tail < u.tail))) : t.clock < u.clock := by
  have := ht.hour
  have := ht.minute
  have := ht.second
  have := hu.hour
  have := hu.minute
  have := hu.second
  refine Instant.padded_append_lt (by omega) (by omega) (h.imp_right (And.imp_right fun h => ?_))
  refine List.cons_lt_cons_iff.2 (.inr ⟨rfl, ?_⟩)
  refine Instant.padded_append_lt (by omega) (by omega) (h.imp_right (And.imp_right fun h => ?_))
  refine List.cons_lt_cons_iff.2 (.inr ⟨rfl, ?_⟩)
  exact Instant.padded_append_lt (by omega) (by omega) h

/-- **Timestamps with the same mark come in the order of their parts.** -/
theorem text_lt (ht : t.IsTimestamp) (hu : u.IsTimestamp) (hmark : t.mark = u.mark)
    (h : t.date.Before u.date ∨ t.date = u.date ∧ t.clock < u.clock) : t.text < u.text := by
  have := ht.date.month_le
  have := ht.date.day_lt
  have := ht.year
  have := hu.date.month_le
  have := hu.date.day_lt
  have := hu.year
  have hparts : t.date.year.toNat < u.date.year.toNat ∨ t.date.year.toNat = u.date.year.toNat ∧
      (t.date.month < u.date.month ∨ t.date.month = u.date.month ∧
        (t.date.day < u.date.day ∨ t.date.day = u.date.day ∧ t.clock < u.clock)) := by
    rcases h with (h | ⟨hyear, h | ⟨hmonth, h⟩⟩) | ⟨hdate, h⟩
    · exact .inl (by omega)
    · exact .inr ⟨congrArg _ hyear, .inl h⟩
    · exact .inr ⟨congrArg _ hyear, .inr ⟨hmonth, .inl h⟩⟩
    · rw [hdate]
      exact .inr ⟨rfl, .inr ⟨rfl, .inr ⟨rfl, h⟩⟩⟩
  refine Instant.padded_append_lt (by omega) (by omega)
    (hparts.imp_right (And.imp_right fun h => ?_))
  refine List.cons_lt_cons_iff.2 (.inr ⟨rfl, ?_⟩)
  refine Instant.padded_append_lt (by omega) (by omega) (h.imp_right (And.imp_right fun h => ?_))
  refine List.cons_lt_cons_iff.2 (.inr ⟨rfl, ?_⟩)
  refine Instant.padded_append_lt (by omega) (by omega) (h.imp_right (And.imp_right fun h => ?_))
  exact List.cons_lt_cons_iff.2 (.inr ⟨hmark, h⟩)

end Timestamp

namespace Instant

/-- **Texts come in the order of the instants.** -/
theorem render_lt {i j : Instant} (hi : i.IsInstant) (hj : j.IsInstant)
    (hyear : 0 ≤ i.year ∧ i.year ≤ 9999) (hyear' : 0 ≤ j.year ∧ j.year ≤ 9999) (h : i.Before j) :
    i.render < j.render := by
  have ht := hi.isTimestamp hyear
  have hu := hj.isTimestamp hyear'
  rw [render_eq hyear, render_eq hyear', String.lt_iff, String.toList_ofList, String.toList_ofList]
  refine Timestamp.text_lt ht hu rfl ?_
  rcases h with h | ⟨hday, h⟩
  · exact .inl (Date.ofDays_before h)
  · refine .inr ⟨congrArg Date.ofDays hday, Timestamp.clock_lt ht hu ?_⟩
    obtain ⟨hsecond, hmilli, hleap⟩ := hi
    obtain ⟨hsecond', hmilli', hleap'⟩ := hj
    have htail : (if 1000 ≤ i.milli then i.milli - 1000 else i.milli) <
        (if 1000 ≤ j.milli then j.milli - 1000 else j.milli) → i.timestamp.tail < j.timestamp.tail := by
      intro hlt
      rw [tail_timestamp, tail_timestamp]
      refine List.cons_lt_cons_iff.2 (.inr ⟨rfl, ?_⟩)
      refine padded_append_lt ?_ ?_ (.inl hlt) <;> split_ifs <;> omega
    change i.second / 3600 < j.second / 3600 ∨ i.second / 3600 = j.second / 3600 ∧
      (i.second / 60 % 60 < j.second / 60 % 60 ∨ i.second / 60 % 60 = j.second / 60 % 60 ∧
        ((i.second % 60 + if 1000 ≤ i.milli then 1 else 0) <
            (j.second % 60 + if 1000 ≤ j.milli then 1 else 0) ∨
          (i.second % 60 + if 1000 ≤ i.milli then 1 else 0) =
            (j.second % 60 + if 1000 ≤ j.milli then 1 else 0) ∧
          i.timestamp.tail < j.timestamp.tail))
    rcases h with h | ⟨hsame, h⟩
    · -- A leap second is still in its minute.
      split_ifs <;> omega
    · rw [hsame]
      refine .inr ⟨rfl, .inr ⟨rfl, ?_⟩⟩
      by_cases hi : 1000 ≤ i.milli
      · have hj : 1000 ≤ j.milli := Nat.le_of_lt (Nat.lt_of_le_of_lt hi h)
        rw [if_pos hi, if_pos hj] at htail ⊢
        exact .inr ⟨rfl, htail (by omega)⟩
      · by_cases hj : 1000 ≤ j.milli
        · rw [if_neg hi, if_pos hj]
          exact .inl (Nat.lt_succ_self _)
        · rw [if_neg hi, if_neg hj] at htail ⊢
          exact .inr ⟨rfl, htail h⟩

end Instant
end Schemata
