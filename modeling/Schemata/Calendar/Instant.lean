import Schemata.Calendar.Date
/-!
# Instant — a millisecond in universal time

An instant is a day, a second of the day and a millisecond.  A leap second continues the second
before it, so its milliseconds run from 1000, and it is printed as second 60 of whatever minute it
was read in.
-/
namespace Schemata

/-- A millisecond in universal time. -/
structure Instant where
  /-- Days from 1970-01-01. -/
  day : Int
  /-- Seconds from midnight. -/
  second : Nat
  /-- Milliseconds in the second; from 1000 in a leap second. -/
  milli : Nat
  deriving DecidableEq, Repr

namespace Instant

/-- The instant so many milliseconds after 1970-01-01, if its year can be represented. -/
def ofMillis? (millis : Int) : Option Instant :=
  let rest := (millis % 86400000).toNat
  let instant : Instant := ⟨millis / 86400000, rest / 1000, rest % 1000⟩
  if (Date.ofDays instant.day).isValid then some instant else none

def ofDate (d : Date) : Instant := ⟨d.toDays, 0, 0⟩

/-- The instant at which clocks that are so many minutes ahead show the given one. -/
def behind (i : Instant) (minutes : Int) : Instant :=
  let second := (i.second : Int) - 60 * minutes
  ⟨i.day + second / 86400, (second % 86400).toNat, i.milli⟩

/-! ## Printing -/

def padded (width n : Nat) : List Char :=
  let ds := Nat.toDigits 10 n
  List.replicate (width - ds.length) '0' ++ ds

/-- A year: four digits, with a sign where that is not enough. -/
def yearText (year : Int) : List Char :=
  if 0 ≤ year && year ≤ 9999 then padded 4 year.toNat
  else (if year < 0 then '-' else '+') :: padded 4 year.natAbs

/-- **The text of an instant**, to the millisecond. -/
def render (i : Instant) : String :=
  let d := Date.ofDays i.day
  let leap := 1000 ≤ i.milli
  String.ofList (yearText d.year ++ '-' :: padded 2 d.month ++ '-' :: padded 2 d.day ++ 'T' ::
    padded 2 (i.second / 3600) ++ ':' :: padded 2 (i.second / 60 % 60) ++ ':' ::
    padded 2 (i.second % 60 + if leap then 1 else 0) ++ '.' ::
    padded 3 (if leap then i.milli - 1000 else i.milli) ++ ['Z'])

end Instant
end Schemata
