import Schemata.Number.Basic
/-!
# Literal — from the digits of a number to its value

The digits are gathered into a word of 64 bits.  Once the next digit no longer fits, further whole
digits only raise the power of ten and further decimals are left out.  The power of ten is then
applied to the rounded word by one multiplication or division, each rounded once; powers beyond `10
^ 308` take one division by `10 ^ 308` each.  So a value is close to the one written, but not always
the closest.
-/
namespace Schemata

/-- A number as it is written, digit by digit. -/
structure Literal where
  negative : Bool
  whole : List Nat
  /-- The digits after the point, if there is a point. -/
  decimals : Option (List Nat)
  /-- Sign and digits of the power of ten, if there is one. -/
  power : Option (Bool × List Nat)

namespace Literal

def wordLimit : Nat := 18446744073709551616

def powerLimit : Nat := 2147483647

/-- Gather whole digits: the word, and how many digits no longer fitted. -/
def gatherWhole : Nat → List Nat → Nat × Nat
  | word, [] => (word, 0)
  | word, d :: ds =>
    if word * 10 + d < wordLimit then gatherWhole (word * 10 + d) ds else (word, ds.length + 1)

/-- Gather decimals while they fit: the word, and how many did. -/
def gatherDecimals : Nat → List Nat → Nat × Nat
  | word, [] => (word, 0)
  | word, d :: ds =>
    if word * 10 + d < wordLimit then
      let (word, count) := gatherDecimals (word * 10 + d) ds
      (word, count + 1)
    else (word, 0)

/-- The power of ten that digits name, unless it is above the limit. -/
def gatherPower : Nat → List Nat → Option Nat
  | power, [] => some power
  | power, d :: ds =>
    if power * 10 + d ≤ powerLimit then gatherPower (power * 10 + d) ds else none

/-- The number nearest to `10 ^ k`, for `k` up to 308. -/
def tenTo (k : Nat) : Binary64 :=
  (Binary64.ofRatio? false (Nat.pow 10 k) 1).getD (Binary64.zero false)

/-- Divide by `10 ^ 308` so many times; zero stays zero. -/
def divideSteps : Nat → Binary64 → Option Binary64
  | 0, x => some x
  | n + 1, x => if x.isZero then some x else (x.div? (tenTo 308)).bind (divideSteps n)

/-- Divide by a power of ten, the part beyond `10 ^ 308` first. -/
def divideByTenTo (x : Binary64) (k : Nat) : Option Binary64 :=
  let steps := (k - 1) / 308
  (divideSteps steps x).bind fun y => y.div? (tenTo (k - 308 * steps))

/-- The word times a power of ten, or nothing when that is out of range. -/
def scaled (word : Nat) (power : Int) : Option Binary64 := do
  let x ← Binary64.ofRatio? false word 1
  if power < 0 then divideByTenTo x (-power).toNat
  else if power ≤ 308 then x.mul? (tenTo power.toNat)
  else if x.isZero then some x
  else none

def float (negative : Bool) (x : Option Binary64) : Option Number :=
  x.map (fun x => .binary (x.withSign negative))

def ofWord (negative : Bool) (word : Nat) : Option Number :=
  if !negative then some (.natural (UInt64.ofNat word))
  else
    match word with
    | 0 => float true (scaled 0 0)
    | n + 1 =>
      if h : n < Number.negatives then some (.negative ⟨n, h⟩) else float true (scaled (n + 1) 0)

/-- **The number a literal denotes**, or nothing when it is out of range. -/
def value? (l : Literal) : Option Number :=
  let (word, excess) := gatherWhole 0 l.whole
  match l.decimals, l.power with
  | none, none =>
    if excess = 0 then ofWord l.negative word else float l.negative (scaled word excess)
  | decimals, power =>
    let (word, count) := gatherDecimals word (decimals.getD [])
    let shift : Int := (excess : Int) - count
    match power with
    | none => float l.negative (scaled word shift)
    | some (negativePower, digits) =>
      match gatherPower 0 digits with
      | some k => float l.negative (scaled word (if negativePower then shift - k else shift + k))
      | none =>
        if negativePower || word = 0 then some (.binary (Binary64.zero l.negative)) else none

end Literal
end Schemata
