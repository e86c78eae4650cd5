import Schemata.Calendar.Instant
/-!
# Reading instants

A text names an instant in one of two forms.  The full form has a year of four digits, a time and an
offset from universal time; fractions of a second are cut to milliseconds, and second 60 is a leap
second.  The short form is a date alone: white space may stand before each number, and a signed year
may have any number of digits.
-/
namespace Schemata

/-! ## White space -/

namespace Blank

/-- The characters with the white-space property: the ASCII controls of layout, the space, next line,
the no-break space, and the spaces and separators of the general punctuation. -/
def ranges : List (Nat × Nat) :=
  [(0x9, 0xd), (0x20, 0x20), (0x85, 0x85), (0xa0, 0xa0), (0x1680, 0x1680), (0x2000, 0x200a),
   (0x2028, 0x2029), (0x202f, 0x202f), (0x205f, 0x205f), (0x3000, 0x3000)]

def isBlank (c : Char) : Bool := ranges.any fun r => r.1 ≤ c.toNat && c.toNat ≤ r.2

def trimStart (cs : List Char) : List Char := cs.dropWhile isBlank

end Blank

/-! ## The two forms -/

namespace Instant

def valueOf (ds : List Char) : Nat := ds.foldl (fun n c => 10 * n + (c.toNat - '0'.toNat)) 0

/-- The digits in front, at least one and at most `most` of them, and what follows. -/
def number? (most : Nat) (cs : List Char) : Option (Nat × List Char) :=
  let ds := (cs.take most).takeWhile Char.isDigit
  if ds.isEmpty then none else some (valueOf ds, cs.drop ds.length)

def digits? (count : Nat) (cs : List Char) : Option (Nat × List Char) :=
  let ds := cs.take count
  if ds.length = count && ds.all Char.isDigit then some (valueOf ds, cs.drop count) else none

def after? (c : Char) : List Char → Option (List Char)
  | [] => none
  | d :: cs => if d = c then some cs else none

def isTimeMark (c : Char) : Bool := c = 'T' || c = 't' || c = ' '

/-- The milliseconds of a fraction, which may be absent, and what follows. -/
def fraction? : List Char → Option (Nat × List Char)
  | '.' :: cs =>
    let ds := cs.takeWhile Char.isDigit
    if ds.isEmpty then none
    else some (valueOf ((ds ++ ['0', '0', '0']).take 3), cs.dropWhile Char.isDigit)
  | cs => some (0, cs)

/-- An offset in minutes, which must be the end of the text. -/
def offset? : List Char → Option Int
  | [] => none
  | c :: cs =>
    if c = 'Z' || c = 'z' then (if cs.isEmpty then some 0 else none)
    else if c = '+' || c = '-' || c = '\u2212' then do
      let (hours, cs) ← digits? 2 cs
      let cs ← after? ':' cs
      let (minutes, cs) ← digits? 2 cs
      if cs.isEmpty && hours ≤ 23 && minutes ≤ 59 then
        let total : Int := (60 * hours + minutes : Nat)
        some (if c = '+' then total else -total)
      else none
    else none

def readFull? (cs : List Char) : Option Instant := do
  let (year, cs) ← digits? 4 cs
  let cs ← after? '-' cs
  let (month, cs) ← digits? 2 cs
  let cs ← after? '-' cs
  let (day, cs) ← digits? 2 cs
  let (mark, cs) ← match cs with
    | [] => none
    | c :: cs => some (c, cs)
  let (hour, cs) ← digits? 2 cs
  let cs ← after? ':' cs
  let (minute, cs) ← digits? 2 cs
  let cs ← after? ':' cs
  let (second, cs) ← digits? 2 cs
  let (milli, cs) ← fraction? cs
  let offset ← offset? cs
  let date : Date := ⟨year, month, day⟩
  if isTimeMark mark && date.isValid && hour ≤ 23 && minute ≤ 59 && second ≤ 60 then
    let leap := second = 60
    let here : Instant :=
      ⟨date.toDays, 3600 * hour + 60 * minute + (if leap then 59 else second),
        milli + if leap then 1000 else 0⟩
    some (here.behind offset)
  else none

/-- A year: up to four digits, or a sign and any number of them. -/
def year? : List Char → Option (Int × List Char)
  | '-' :: cs => (number? cs.length cs).map fun r => (-(r.1 : Int), r.2)
  | '+' :: cs => (number? cs.length cs).map fun r => ((r.1 : Int), r.2)
  | cs => (number? 4 cs).map fun r => ((r.1 : Int), r.2)

def readDate? (cs : List Char) : Option Instant := do
  let (year, cs) ← year? (Blank.trimStart cs)
  let cs ← after? '-' cs
  let (month, cs) ← number? 2 (Blank.trimStart cs)
  let cs ← after? '-' cs
  let (day, cs) ← number? 2 (Blank.trimStart cs)
  let date : Date := ⟨year, month, day⟩
  if cs.isEmpty && date.isValid then some (ofDate date) else none

/-- **The instant a text names**, in either form. -/
def read? (text : String) : Option Instant := readFull? text.toList <|> readDate? text.toList

end Instant
end Schemata
