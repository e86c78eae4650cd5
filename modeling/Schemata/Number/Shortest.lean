import Schemata.Number.Binary64
/-!
# Shortest — the fewest decimal digits that name a binary number

The decimals that round to a number are an interval around it, ends included when its word is even.
For one digit, two digits, and so on, the two neighbours of the number on that decimal grid are
tried: the first grid with a hit wins, of two hits the nearer, of two equally near the even one.
-/
namespace Schemata

/-- A decimal: `digits * 10 ^ exponent`. -/
structure Decimal where
  digits : Nat
  exponent : Int
  deriving DecidableEq

namespace Decimal

/-- How many digits a number has in base ten; zero has none. -/
def digitCount (n : Nat) : Nat := if n = 0 then 0 else (Nat.toDigits 10 n).length

/-- The power of ten of the leading digit of `num / den`. -/
def leadingPower (num den : Nat) : Int :=
  if den ≤ num then (digitCount (num / den) : Int) - 1 else -(digitCount ((den - 1) / num) : Int)

def trim (d : Decimal) : Nat → Decimal
  | 0 => d
  | fuel + 1 =>
    if d.digits % 10 = 0 && d.digits ≠ 0 then trim ⟨d.digits / 10, d.exponent + 1⟩ fuel else d

/-- The magnitudes that round to a number, over a common denominator. -/
structure Interval where
  low : Nat
  value : Nat
  high : Nat
  den : Nat
  closed : Bool

/-- The interval of a number: half way to the neighbours on either side. -/
def Interval.around (x : Binary64) : Interval :=
  let m := x.significand
  let below := if m = Binary64.binade && x.exponent > -1074 then 1 else 2
  let scale := if x.exponent ≥ 2 then Nat.pow 2 (x.exponent - 2).toNat else 1
  let den := if x.exponent ≥ 2 then 1 else Nat.pow 2 (2 - x.exponent).toNat
  ⟨(4 * m - below) * scale, 4 * m * scale, (4 * m + 2) * scale, den, m % 2 == 0⟩

/-- A hit on the grid of step `10 ^ step`. -/
def Interval.onGrid? (i : Interval) (step : Int) : Option Decimal :=
  let up := if step < 0 then Nat.pow 10 (-step).toNat else 1
  let den := if step < 0 then i.den else i.den * Nat.pow 10 step.toNat
  let inside (d : Nat) : Bool :=
    if i.closed then i.low * up ≤ d * den && d * den ≤ i.high * up
    else i.low * up < d * den && d * den < i.high * up
  let d := i.value * up / den
  let r := i.value * up % den
  let nearerIsUpper := 2 * r > den || (2 * r == den && d % 2 == 1)
  match inside d, inside (d + 1) with
  | true, true => some ⟨if nearerIsUpper then d + 1 else d, step⟩
  | true, false => some ⟨d, step⟩
  | false, true => some ⟨d + 1, step⟩
  | false, false => none

/-- The first hit among the grids of `step`, `step - 1`, and so on. -/
def Interval.firstHit (i : Interval) (step : Int) : Nat → Decimal
  | 0 => ⟨0, 0⟩
  | fuel + 1 => (i.onGrid? step).getD (i.firstHit (step - 1) fuel)

/-- **The shortest decimal that rounds to the number**; seventeen digits always suffice. -/
def shortest (x : Binary64) : Decimal :=
  if x.isZero then ⟨0, 0⟩ else
  let i := Interval.around x
  (i.firstHit (leadingPower i.value i.den) 18).trim 20

end Decimal
end Schemata
