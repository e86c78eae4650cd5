/-!
# Binary64 — finite binary floating-point numbers

A finite number of the 64-bit binary format: a sign and the place of its magnitude among all
magnitudes, counted from zero.  The format packs its exponent above its fraction, so that place is
the word itself without the sign bit, and "the next magnitude" is `ordinal + 1`.  Nothing here uses
machine arithmetic: every operation is the exact result, rounded once to the nearest number, a tie
to the even word.
-/
namespace Schemata

def Binary64.binade : Nat := 4503599627370496

def Binary64.magnitudes : Nat := 2047 * Binary64.binade

/-- A finite number of the 64-bit binary format. -/
structure Binary64 where
  negative : Bool
  ordinal : Nat
  isFinite : ordinal < Binary64.magnitudes
  deriving DecidableEq

namespace Binary64

def zero (negative : Bool) : Binary64 := ⟨negative, 0, by decide⟩

def isZero (x : Binary64) : Bool := x.ordinal == 0

/-- The integer part of the magnitude `significand * 2 ^ exponent`. -/
def significand (x : Binary64) : Nat :=
  if x.ordinal < binade then x.ordinal else binade + x.ordinal % binade

/-- The power of two of the magnitude `significand * 2 ^ exponent`. -/
def exponent (x : Binary64) : Int :=
  if x.ordinal < binade then -1074 else (x.ordinal / binade : Nat) - 1075

def magnitude (x : Binary64) : Nat × Nat :=
  if x.exponent < 0 then (x.significand, Nat.pow 2 (-x.exponent).toNat)
  else (x.significand * Nat.pow 2 x.exponent.toNat, 1)

/-- The exact value as a fraction; the denominator is positive. -/
def fraction (x : Binary64) : Int × Nat :=
  (if x.negative then -(x.magnitude.1 : Int) else x.magnitude.1, x.magnitude.2)

/-- Is the value less?  The two zeros are equal. -/
def isLess (x y : Binary64) : Bool := x.fraction.1 * y.fraction.2 < y.fraction.1 * x.fraction.2

/-- The largest power of two that is at most `num / den`. -/
def floorLog2 (num den : Nat) : Int :=
  let guess : Int := (Nat.log2 num : Int) - Nat.log2 den
  let fits :=
    if guess < 0 then den ≤ num * Nat.pow 2 (-guess).toNat else den * Nat.pow 2 guess.toNat ≤ num
  if fits then guess else guess - 1

/-- The quotient rounded to the nearest whole number, a tie to the even one. -/
def roundQuotient (num den : Nat) : Nat :=
  let q := num / den
  let r := num % den
  if 2 * r > den || (2 * r == den && q % 2 == 1) then q + 1 else q

/-- **The number nearest to `num / den`**, or nothing when that is out of range. -/
def ofRatio? (negative : Bool) (num den : Nat) : Option Binary64 :=
  if num = 0 then some (zero negative) else
  let unit : Int := max (-1074) (floorLog2 num den - 52)
  let steps := if unit < 0 then roundQuotient (num * Nat.pow 2 (-unit).toNat) den
    else roundQuotient num (den * Nat.pow 2 unit.toNat)
  let ordinal := (unit + 1074).toNat * binade + steps
  if h : ordinal < magnitudes then some ⟨negative, ordinal, h⟩ else none

def mul? (x y : Binary64) : Option Binary64 :=
  ofRatio? (x.negative != y.negative) (x.magnitude.1 * y.magnitude.1)
    (x.magnitude.2 * y.magnitude.2)

def div? (x y : Binary64) : Option Binary64 :=
  ofRatio? (x.negative != y.negative) (x.magnitude.1 * y.magnitude.2)
    (x.magnitude.2 * y.magnitude.1)

def withSign (x : Binary64) (negative : Bool) : Binary64 := { x with negative }

end Binary64
end Schemata
