import Schemata.Number.Binary64
/-!
# Number — the three forms of a JSON number

A number keeps the form in which it was written: a whole number up to `2 ^ 64 - 1`, a negative whole
number down to `-2 ^ 63`, or a binary floating-point number.  `1` and `1.0` are different numbers;
where limits are compared, they are compared as the binary numbers nearest to them.
-/
namespace Schemata

/-- How many integers of 64 bits are negative: `2 ^ 63`. -/
def Number.negatives : Nat := 9223372036854775808

/-- A JSON number in the form in which it was written. -/
inductive Number where
  /-- A whole number. -/
  | natural (n : UInt64)
  /-- The whole number `-(n + 1)`. -/
  | negative (n : Fin Number.negatives)
  /-- Anything else. -/
  | binary (x : Binary64)
  deriving DecidableEq

namespace Number

/-- The exact value as a fraction; the denominator is positive. -/
def fraction : Number → Int × Nat
  | natural n => (n.toNat, 1)
  | negative n => (-(n.val + 1 : Nat), 1)
  | binary x => x.fraction

/-- The nearest binary floating-point number; a whole number beyond `2 ^ 53` may be rounded. -/
def nearest : Number → Binary64
  | natural n => (Binary64.ofRatio? false n.toNat 1).getD (Binary64.zero false)
  | negative n => (Binary64.ofRatio? true (n.val + 1) 1).getD (Binary64.zero true)
  | binary x => x

def isZero (x : Number) : Bool := x.fraction.1 == 0

/-- The signed 64-bit integer it is written as, if it is one. -/
def int64? : Number → Option Int
  | natural n => if n.toNat < negatives then some n.toNat else none
  | negative n => some (-(n.val + 1 : Nat))
  | binary _ => none

end Number
end Schemata
