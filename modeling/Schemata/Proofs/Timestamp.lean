import Mathlib.Data.List.TakeWhile
import Mathlib.Tactic.IntervalCases
import Mathlib.Tactic.SplitIfs
import Schemata.Proofs.Calendar
import Schemata.Proofs.Digits
/-!
# Timestamp — the full form of an instant

A text in the full form is made of a date, a time, a fraction and a zone (`Timestamp.text`), and it is
read if and only if it is made like that (`Instant.readFull?_eq_some_iff`).  Without a leap second the
instant it names is that of its milliseconds (`Timestamp.instant_eq`), which take the fraction down to a
whole one and the zone off.
-/
namespace Schemata

open Instant (padded valueOf)

/-! ## Zones -/

/-- How a text says by which clocks its time is told. -/
inductive Zone where
  /-- Universal time, by a letter. -/
  | universal (letter : Char)
  /-- So many hours and minutes before universal time or behind it, by a sign. -/
  | offset (sign : Char) (hours minutes : Nat)

namespace Zone

def text : Zone → List Char
  | universal letter => [letter]
  | offset sign hours minutes => sign :: (padded 2 hours ++ ':' :: padded 2 minutes)

/-- How many minutes the clocks are ahead of universal time. -/
def ahead : Zone → Int
  | universal _ => 0
  | offset sign hours minutes =>
    if sign = '+' then (60 * hours + minutes : Nat) else -(60 * hours + minutes : Nat)

def IsZone : Zone → Prop
  | universal letter => letter = 'Z' ∨ letter = 'z'
  | offset sign hours minutes =>
    (sign = '+' ∨ sign = '-' ∨ sign = '\u2212') ∧ hours ≤ 23 ∧ minutes ≤ 59

/-- No zone can be taken for the rest of a number. -/
theorem IsZone.head {z : Zone} (h : z.IsZone) {c : Char} {cs : List Char} (htext : z.text = c :: cs) :
    c.isDigit = false ∧ c ≠ '.' := by
  cases z with
  | universal letter =>
    cases htext
    rcases h with rfl | rfl <;> decide
  | offset sign hours minutes =>
    cases htext
    rcases h.1 with rfl | rfl | rfl <;> decide

end Zone

/-! ## Fractions -/

/-- The milliseconds of a fraction; what is less than a millisecond is cut off. -/
def millisOf (fraction : List Char) : Nat := valueOf fraction * 1000 / 10 ^ fraction.length

def fractionText (fraction : List Char) : List Char :=
  if fraction = [] then [] else '.' :: fraction

/-! ## Timestamps -/

/-- **A text in the full form**, taken apart. -/
structure Timestamp where
  date : Date
  /-- What stands between the date and the time. -/
  mark : Char
  hour : Nat
  minute : Nat
  second : Nat
  /-- The digits behind the point; there is no point without digits. -/
  fraction : List Char
  zone : Zone

namespace Timestamp

/-- What stands behind the seconds. -/
def tail (t : Timestamp) : List Char := fractionText t.fraction ++ t.zone.text

/-- What stands behind the mark. -/
def clock (t : Timestamp) : List Char :=
  padded 2 t.hour ++ ':' :: (padded 2 t.minute ++ ':' :: (padded 2 t.second ++ t.tail))

/-- What stands behind the year and a dash. -/
def afterYear (t : Timestamp) : List Char :=
  padded 2 t.date.month ++ '-' :: (padded 2 t.date.day ++ t.mark :: t.clock)

def text (t : Timestamp) : List Char := padded 4 t.date.year.toNat ++ '-' :: t.afterYear

/-- The parts are in range; second 60 is a leap second, whatever the minute. -/
structure IsTimestamp (t : Timestamp) : Prop where
  date : t.date.IsDay
  year : 0 ≤ t.date.year ∧ t.date.year ≤ 9999
  mark : t.mark = 'T' ∨ t.mark = 't' ∨ t.mark = ' '
  hour : t.hour ≤ 23
  minute : t.minute ≤ 59
  second : t.second ≤ 60
  fraction : ∀ c ∈ t.fraction, c.isDigit = true
  zone : t.zone.IsZone

/-- The instant that a text names: a leap second goes on with the second before it. -/
def instant (t : Timestamp) : Instant :=
  Instant.behind
    ⟨t.date.toDays, 3600 * t.hour + 60 * t.minute + (if t.second = 60 then 59 else t.second),
      millisOf t.fraction + if t.second = 60 then 1000 else 0⟩ t.zone.ahead

/-- **The milliseconds from 1970-01-01 to a time** by its clocks, less what they are ahead. -/
def millis (t : Timestamp) : Int :=
  ((t.date.toDays * 24 + t.hour) * 60 + t.minute - t.zone.ahead) * 60000 + t.second * 1000 +
    millisOf t.fraction

end Timestamp

namespace Instant

/-! ## Reading the parts -/

theorem after?_eq_some_iff {c : Char} {cs rest : List Char} :
    after? c cs = some rest ↔ cs = c :: rest := by
  cases cs with
  | nil => simp [after?]
  | cons d cs => by_cases h : d = c <;> simp [after?, h]

theorem offset?_eq_some_iff {cs : List Char} {ahead : Int} :
    offset? cs = some ahead ↔ ∃ z : Zone, z.IsZone ∧ cs = z.text ∧ ahead = z.ahead := by
  constructor
  · intro h
    cases cs with
    | nil => cases h
    | cons c cs =>
      rw [offset?] at h
      by_cases hletter : c = 'Z' ∨ c = 'z'
      · rw [if_pos (by simpa using hletter)] at h
        split at h
        · rename_i hempty
          cases h
          exact ⟨.universal c, hletter, by rw [List.isEmpty_iff.1 hempty]; rfl, rfl⟩
        · cases h
      · rw [if_neg (by simpa using hletter)] at h
        split at h
        · rename_i hsign
          simp only [Option.bind_eq_bind, Option.bind_eq_some_iff, Prod.exists] at h
          obtain ⟨hours, rest, hhours, rest', hcolon, minutes, last, hminutes, h⟩ := h
          rw [digits?_eq_some_iff] at hhours hminutes
          rw [after?_eq_some_iff] at hcolon
          split at h
          · rename_i hrange
            simp only [Bool.and_eq_true, List.isEmpty_iff, decide_eq_true_eq] at hrange
            obtain ⟨⟨rfl, hhours'⟩, hminutes'⟩ := hrange
            have hsign : c = '+' ∨ c = '-' ∨ c = '\u2212' := by simpa [or_assoc] using hsign
            cases h
            refine ⟨.offset c hours minutes, ⟨hsign, hhours', hminutes'⟩, ?_, rfl⟩
            rw [hhours.2, hcolon, hminutes.2, List.append_nil]
            rfl
          · cases h
        · cases h
  · rintro ⟨z, hz, rfl, rfl⟩
    cases z with
    | universal letter => rcases hz with rfl | rfl <;> rfl
    | offset sign hours minutes =>
      obtain ⟨hsign, hhours, hminutes⟩ := hz
      have hletter : ¬ (decide (sign = 'Z') || decide (sign = 'z')) = true := by
        rcases hsign with rfl | rfl | rfl <;> decide
      have hmarks : (decide (sign = '+') || decide (sign = '-') || decide (sign = '\u2212')) = true := by
        simpa [or_assoc] using hsign
      have hread : digits? 2 (padded 2 hours ++ ':' :: padded 2 minutes) =
          some (hours, ':' :: padded 2 minutes) := digits?_eq_some_iff.2 ⟨by omega, rfl⟩
      have hread' : digits? 2 (padded 2 minutes) = some (minutes, []) :=
        digits?_eq_some_iff.2 ⟨by omega, (List.append_nil _).symm⟩
      rw [Zone.text, offset?, if_neg hletter, if_pos hmarks, hread]
      simp only [Option.bind_eq_bind, Option.bind_some, after?_eq_some_iff.2 rfl, hread']
      rw [if_pos (by simp [hhours, hminutes])]
      rfl

/-! ## Fractions -/

/-- The first three digits are the whole milliseconds. -/
theorem valueOf_take {fraction : List Char} (h : ∀ c ∈ fraction, c.isDigit = true) :
    valueOf ((fraction ++ ['0', '0', '0']).take 3) = millisOf fraction := by
  by_cases hlength : fraction.length ≤ 3
  · -- Fewer digits are filled up with zeros.
    have htake : (fraction ++ ['0', '0', '0']).take 3 =
        fraction ++ List.replicate (3 - fraction.length) '0' := by
      rw [List.take_append, List.take_of_length_le hlength]
      congr 1
      interval_cases fraction.length <;> rfl
    have hzeros : valueOf (List.replicate (3 - fraction.length) '0') = 0 := by
      rw [valueOf_eq, Nat.ofDigitChars_replicate_zero, Nat.mul_zero]
    have hthousand : 1000 = 10 ^ (3 - fraction.length) * 10 ^ fraction.length := by
      rw [← Nat.pow_add, Nat.sub_add_cancel hlength]
    rw [htake, valueOf_append, List.length_replicate, hzeros, millisOf]
    conv_rhs => rw [hthousand]
    rw [← Nat.mul_assoc, Nat.mul_div_cancel _ (Nat.pow_pos (by decide)), Nat.mul_comm, Nat.add_zero]
  · -- More digits are less than a millisecond.
    have hsplit : fraction = fraction.take 3 ++ fraction.drop 3 := (List.take_append_drop 3 _).symm
    have hrest : valueOf (fraction.drop 3) < 10 ^ (fraction.drop 3).length :=
      valueOf_lt fun c hc => h c (List.mem_of_mem_drop hc)
    have hlength' : fraction.length = (fraction.drop 3).length + 3 := by
      rw [List.length_drop]
      omega
    have hvalue : valueOf fraction =
        10 ^ (fraction.drop 3).length * valueOf (fraction.take 3) + valueOf (fraction.drop 3) := by
      conv_lhs => rw [hsplit]
      exact valueOf_append _ _
    rw [List.take_append_of_le_length (by omega), millisOf, hvalue, hlength', Nat.pow_add]
    have hpos : 0 < 10 ^ (fraction.drop 3).length := Nat.pow_pos (by decide)
    rw [show (1000 : Nat) = 10 ^ 3 from rfl, Nat.mul_div_mul_right _ _ (by decide),
      Nat.mul_add_div hpos, Nat.div_eq_of_lt hrest, Nat.add_zero]

theorem fraction?_eq_some {cs rest : List Char} {milli : Nat}
    (h : fraction? cs = some (milli, rest)) :
    ∃ fraction, (∀ c ∈ fraction, c.isDigit = true) ∧ cs = fractionText fraction ++ rest ∧
      milli = millisOf fraction := by
  unfold fraction? at h
  split at h
  · rename_i ds
    dsimp only at h
    split at h
    · cases h
    · rename_i hempty
      cases h
      have hdigits : ∀ c ∈ ds.takeWhile Char.isDigit, c.isDigit = true :=
        fun c hc => List.mem_takeWhile_imp hc
      refine ⟨ds.takeWhile Char.isDigit, hdigits, ?_, valueOf_take hdigits⟩
      rw [fractionText, if_neg (mt List.isEmpty_iff.2 hempty), List.cons_append,
        List.takeWhile_append_dropWhile]
  · cases h
    exact ⟨[], fun c hc => absurd hc List.not_mem_nil, rfl, rfl⟩

theorem fraction?_text {fraction rest : List Char} (h : ∀ c ∈ fraction, c.isDigit = true)
    (hrest : ∀ c cs, rest = c :: cs → c.isDigit = false ∧ c ≠ '.') :
    fraction? (fractionText fraction ++ rest) = some (millisOf fraction, rest) := by
  by_cases hempty : fraction = []
  · subst hempty
    cases rest with
    | nil => rfl
    | cons c cs =>
      have hpoint := (hrest c cs rfl).2
      rw [fractionText, if_pos rfl, List.nil_append, fraction?.eq_2]
      · rfl
      · exact fun _ hcs => hpoint (List.cons.inj hcs).1
  · have hend : rest.takeWhile Char.isDigit = [] ∧ rest.dropWhile Char.isDigit = rest := by
      cases rest with
      | nil => exact ⟨rfl, rfl⟩
      | cons c cs =>
        have hdigit : ¬ c.isDigit = true := by simp [(hrest c cs rfl).1]
        exact ⟨List.takeWhile_cons_of_neg hdigit, List.dropWhile_cons_of_neg hdigit⟩
    rw [fractionText, if_neg hempty, List.cons_append, fraction?, List.takeWhile_append_of_pos h,
      List.dropWhile_append_of_pos h, hend.1, hend.2, List.append_nil,
      if_neg (mt List.isEmpty_iff.1 hempty), valueOf_take h]

/-! ## Reading the whole -/

/-- **A text is read in the full form if and only if it is made like that.** -/
theorem readFull?_eq_some_iff {cs : List Char} {i : Instant} :
    readFull? cs = some i ↔ ∃ t : Timestamp, t.IsTimestamp ∧ cs = t.text ∧ i = t.instant := by
  constructor
  · intro h
    unfold readFull? at h
    obtain ⟨⟨year, cs₁⟩, hyear, h⟩ := Option.bind_eq_some_iff.1 h
    obtain ⟨cs₂, hdash, h⟩ := Option.bind_eq_some_iff.1 h
    obtain ⟨⟨month, cs₃⟩, hmonth, h⟩ := Option.bind_eq_some_iff.1 h
    obtain ⟨cs₄, hdash', h⟩ := Option.bind_eq_some_iff.1 h
    obtain ⟨⟨day, cs₅⟩, hday, h⟩ := Option.bind_eq_some_iff.1 h
    cases cs₅ with
    | nil => cases h
    | cons mark cs₆ =>
    obtain ⟨_, hmark, h⟩ := Option.bind_eq_some_iff.1 h
    cases hmark
    obtain ⟨⟨hour, cs₇⟩, hhour, h⟩ := Option.bind_eq_some_iff.1 h
    obtain ⟨cs₈, hcolon, h⟩ := Option.bind_eq_some_iff.1 h
    obtain ⟨⟨minute, cs₉⟩, hminute, h⟩ := Option.bind_eq_some_iff.1 h
    obtain ⟨cs₁₀, hcolon', h⟩ := Option.bind_eq_some_iff.1 h
    obtain ⟨⟨second, cs₁₁⟩, hsecond, h⟩ := Option.bind_eq_some_iff.1 h
    obtain ⟨⟨milli, cs₁₂⟩, hmilli, h⟩ := Option.bind_eq_some_iff.1 h
    obtain ⟨ahead, hahead, h⟩ := Option.bind_eq_some_iff.1 h
    dsimp only at hdash hdash' hcolon hcolon' hmonth hday hhour hminute hsecond hmilli hahead h
    rw [digits?_eq_some_iff] at hyear hmonth hday hhour hminute hsecond
    rw [after?_eq_some_iff] at hdash hdash' hcolon hcolon'
    obtain ⟨fraction, hfraction, hcs₁₁, rfl⟩ := fraction?_eq_some hmilli
    obtain ⟨zone, hzone, hcs₁₂, rfl⟩ := offset?_eq_some_iff.1 hahead
    split at h
    · rename_i hrange
      cases h
      simp only [Bool.and_eq_true, decide_eq_true_eq, isTimeMark, Bool.or_eq_true] at hrange
      obtain ⟨⟨⟨⟨hmark, hvalid⟩, hhour'⟩, hminute'⟩, hsecond'⟩ := hrange
      refine ⟨⟨⟨year, month, day⟩, mark, hour, minute, second, fraction, zone⟩, ?_, ?_, ?_⟩
      · refine ⟨((Date.isValid_iff _).1 hvalid).2.2, ⟨Int.natCast_nonneg _, ?_⟩, or_assoc.1 hmark,
          hhour', hminute', hsecond', hfraction, hzone⟩
        have := hyear.1
        dsimp only
        omega
      · rw [hyear.2, hdash, hmonth.2, hdash', hday.2, hhour.2, hcolon, hminute.2, hcolon', hsecond.2,
          hcs₁₁, hcs₁₂]
        rfl
      · rfl
    · cases h
  · rintro ⟨t, ht, rfl, rfl⟩
    obtain ⟨hdate, hyear, hmark, hhour, hminute, hsecond, hfraction, hzone⟩ := ht
    have hmonth := hdate.month_le
    have hday := hdate.day_lt
    have hvalid : t.date.isValid = true :=
      t.date.isValid_iff.2 ⟨by unfold Date.firstYear; omega, by unfold Date.lastYear; omega, hdate⟩
    have hnat : ((t.date.year.toNat : Nat) : Int) = t.date.year := Int.toNat_of_nonneg hyear.1
    unfold readFull?
    refine Option.bind_eq_some_iff.2 ⟨(t.date.year.toNat, _),
      digits?_eq_some_iff.2 ⟨by omega, rfl⟩, ?_⟩
    refine Option.bind_eq_some_iff.2 ⟨_, after?_eq_some_iff.2 rfl, ?_⟩
    refine Option.bind_eq_some_iff.2 ⟨(t.date.month, _), digits?_eq_some_iff.2 ⟨by omega, rfl⟩, ?_⟩
    refine Option.bind_eq_some_iff.2 ⟨_, after?_eq_some_iff.2 rfl, ?_⟩
    refine Option.bind_eq_some_iff.2 ⟨(t.date.day, _), digits?_eq_some_iff.2 ⟨by omega, rfl⟩, ?_⟩
    refine Option.bind_eq_some_iff.2 ⟨(t.mark, _), rfl, ?_⟩
    refine Option.bind_eq_some_iff.2 ⟨(t.hour, _), digits?_eq_some_iff.2 ⟨by omega, rfl⟩, ?_⟩
    refine Option.bind_eq_some_iff.2 ⟨_, after?_eq_some_iff.2 rfl, ?_⟩
    refine Option.bind_eq_some_iff.2 ⟨(t.minute, _), digits?_eq_some_iff.2 ⟨by omega, rfl⟩, ?_⟩
    refine Option.bind_eq_some_iff.2 ⟨_, after?_eq_some_iff.2 rfl, ?_⟩
    refine Option.bind_eq_some_iff.2 ⟨(t.second, _), digits?_eq_some_iff.2 ⟨by omega, rfl⟩, ?_⟩
    refine Option.bind_eq_some_iff.2 ⟨(millisOf t.fraction, _),
      fraction?_text hfraction fun _ _ => hzone.head, ?_⟩
    refine Option.bind_eq_some_iff.2 ⟨t.zone.ahead,
      offset?_eq_some_iff.2 ⟨t.zone, hzone, rfl, rfl⟩, ?_⟩
    have hmark' : isTimeMark t.mark = true := by
      rcases hmark with h | h | h <;> rw [h] <;> rfl
    dsimp only
    rw [hnat, if_pos (by simp [hmark', hvalid, hhour, hminute, hsecond])]
    rfl

end Instant

/-! ## Milliseconds -/

theorem millisOf_lt {fraction : List Char} (h : ∀ c ∈ fraction, c.isDigit = true) :
    millisOf fraction < 1000 := by
  have hvalue := Instant.valueOf_lt h
  rw [millisOf, Nat.div_lt_iff_lt_mul (Nat.pow_pos (by decide)), Nat.mul_comm]
  exact Nat.mul_lt_mul_of_pos_left hvalue (by decide)

namespace Instant

/-- The instant so many milliseconds after 1970-01-01. -/
def atMillis (millis : Int) : Instant :=
  ⟨millis / 86400000, (millis % 86400000).toNat / 1000, (millis % 86400000).toNat % 1000⟩

theorem ofMillis?_eq (millis : Int) :
    ofMillis? millis =
      if (Date.ofDays (atMillis millis).day).isValid then some (atMillis millis) else none := rfl

end Instant

/-- **Without a leap second a text names the instant of its milliseconds**, by whatever clocks it tells
the time and however long its fraction is. -/
theorem Timestamp.instant_eq {t : Timestamp} (h : t.IsTimestamp) (hleap : t.second ≤ 59) :
    t.instant = Instant.atMillis t.millis := by
  obtain ⟨-, -, -, hhour, hminute, -, hfraction, -⟩ := h
  have hmilli := millisOf_lt hfraction
  have hsecond : t.second ≠ 60 := by omega
  unfold Timestamp.instant Instant.behind Instant.atMillis Timestamp.millis
  rw [if_neg hsecond, if_neg hsecond, Instant.mk.injEq]
  dsimp only
  generalize t.date.toDays = day at *
  generalize millisOf t.fraction = milli at *
  generalize t.zone.ahead = ahead at *
  refine ⟨?_, ?_, ?_⟩ <;> omega

end Schemata
