import Schemata.Toml.Value
import Schemata.Calendar.Date
import Schemata.Number.Binary64
/-!
# Numbers, words and times in TOML

Digits may be grouped by underscores, one between two digits.  Whole numbers must fit into 128 bits,
and a fraction or power of ten must not exceed the range of floating-point numbers.
-/
namespace Schemata
namespace Toml

def grouped? (isDigit : Char → Bool) : List Char → Option (List Char)
  | [] => none
  | [c] => if isDigit c then some [c] else none
  | c :: '_' :: cs => if isDigit c then (grouped? isDigit cs).map (c :: ·) else none
  | c :: cs => if isDigit c then (grouped? isDigit cs).map (c :: ·) else none

def digitValue (c : Char) : Nat :=
  if c.isDigit then c.toNat - '0'.toNat
  else if c.isLower then c.toNat - 'a'.toNat + 10
  else c.toNat - 'A'.toNat + 10

def valueIn (base : Nat) (ds : List Char) : Nat := ds.foldl (fun n c => base * n + digitValue c) 0

def isDigitIn (base : Nat) (c : Char) : Bool :=
  (c.isDigit || ('a' ≤ c && c ≤ 'f') || ('A' ≤ c && c ≤ 'F')) && digitValue c < base

/-- Does a whole number fit into 128 bits, signed or not? -/
def fits (negative : Bool) (n : Nat) : Bool :=
  if negative then n ≤ Nat.pow 2 127 else n < Nat.pow 2 128

def sign : List Char → Bool × List Char
  | '+' :: cs => (false, cs)
  | '-' :: cs => (true, cs)
  | cs => (false, cs)

def wholeDigits? (cs : List Char) : Option (List Char) := do
  let ds ← grouped? Char.isDigit cs
  if ds.length > 1 && ds.head? = some '0' then none else some ds

def based? (base : Nat) (cs : List Char) : Option Value := do
  let ds ← grouped? (isDigitIn base) cs
  if fits false (valueIn base ds) then some .number else none

/-- Is `digits * 10 ^ power` in the range of floating-point numbers? -/
def isInRange (ds : List Char) (power : Int) : Bool :=
  let ds := ds.dropWhile fun c => c = '0'
  let lead : Int := ds.length + power
  if ds.isEmpty || lead < 300 then true
  else if lead > 320 then false
  else
    let n := valueIn 10 ds
    let fraction :=
      if power < 0 then (n, Nat.pow 10 (-power).toNat) else (n * Nat.pow 10 power.toNat, 1)
    (Binary64.ofRatio? false fraction.1 fraction.2).isSome

def power? (cs : List Char) : Option Int := do
  let (negative, cs) := sign cs
  let ds ← grouped? Char.isDigit cs
  let ds := ds.dropWhile fun c => c = '0'
  let size : Int := if ds.length > 9 then 1000000000 else valueIn 10 ds
  return if negative then -size else size

def isPowerMark (c : Char) : Bool := c = 'e' || c = 'E'

/-- A decimal number: digits, then a fraction, a power of ten, both or neither. -/
def decimal? (cs : List Char) : Option Value := do
  let (negative, cs) := sign cs
  if cs = ['i', 'n', 'f'] || cs = ['n', 'a', 'n'] then return .number
  let (mantissa, rest) := cs.span fun c => !isPowerMark c
  let (whole, part) := mantissa.span fun c => c != '.'
  let whole ← wholeDigits? whole
  let power ← match rest with
    | [] => some 0
    | _ :: cs => power? cs
  match part with
  | [] =>
    if rest.isEmpty then (if fits negative (valueIn 10 whole) then some .number else none)
    else if isInRange whole power then some .number
    else none
  | _ :: part =>
    let part ← grouped? Char.isDigit part
    if isInRange (whole ++ part) (power - part.length) then some .number else none

/-! ## Times -/

def two? (a b : Char) : Option Nat :=
  if a.isDigit && b.isDigit then some (valueIn 10 [a, b]) else none

/-- The clock: hours, minutes, seconds and a fraction; what follows. -/
def clock? : List Char → Option (List Char)
  | h :: h' :: ':' :: m :: m' :: ':' :: s :: s' :: rest => do
    let hour ← two? h h'
    let minute ← two? m m'
    let second ← two? s s'
    if hour > 23 || minute > 59 || second > 60 then none
    match rest with
    | '.' :: rest =>
      if (rest.takeWhile Char.isDigit).isEmpty then none else some (rest.dropWhile Char.isDigit)
    | rest => some rest
  | _ => none

def isOffset : List Char → Bool
  | [] => true
  | ['Z'] | ['z'] => true
  | [c, h, h', ':', m, m'] =>
    (c = '+' || c = '-') && (two? h h').any (· ≤ 23) && (two? m m').any (· ≤ 59)
  | _ => false

def date? : List Char → Option (List Char)
  | y :: y' :: y'' :: y''' :: '-' :: m :: m' :: '-' :: d :: d' :: rest => do
    let century ← two? y y'
    let year ← two? y'' y'''
    let month ← two? m m'
    let day ← two? d d'
    let date : Date := ⟨(100 * century + year : Nat), month, day⟩
    if date.isValid then some rest else none
  | _ => none

def isMoment (cs : List Char) : Bool :=
  match date? cs with
  | some [] => true
  | some (c :: rest) =>
    (c = 'T' || c = 't' || c = ' ') && (clock? rest).any isOffset
  | none => clock? cs = some []

/-! ## Words -/

def scalar? (cs : List Char) : Option Value :=
  match cs with
  | ['t', 'r', 'u', 'e'] => some (.boolean true)
  | ['f', 'a', 'l', 's', 'e'] => some (.boolean false)
  | '0' :: 'x' :: cs => based? 16 cs
  | '0' :: 'o' :: cs => based? 8 cs
  | '0' :: 'b' :: cs => based? 2 cs
  | cs => if isMoment cs then some .moment else decimal? cs

end Toml
end Schemata
