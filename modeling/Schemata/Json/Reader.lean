import Schemata.Json.Source
import Schemata.Number.Literal
/-!
# Laying out a text

The text is taken from the left.  Every part returns its tree together with the characters after it,
or with nothing when a flaw leaves no place to go on from.
-/
namespace Schemata
namespace Source

/-- The rest of the text, where there is a place to go on from. -/
abbrev Rest : Type := Option (List Char)

def isGap (c : Char) : Bool := c = ' ' || c = '\t' || c = '\n' || c = '\r'

def afterGap (cs : List Char) : List Char := cs.dropWhile isGap

/-! ## Words and numbers -/

def afterWord : List Char → List Char → Except Flaw (List Char)
  | [], cs => .ok cs
  | _ :: _, [] => .error .truncated
  | w :: ws, c :: cs => if c = w then afterWord ws cs else .error .malformed

def word (letters : List Char) (meaning : Source) (cs : List Char) : Source × Rest :=
  match afterWord letters cs with
  | .ok rest => (meaning, some rest)
  | .error flaw => (broken flaw flaw, none)

def digit (c : Char) : Nat := c.toNat - '0'.toNat

def digits (cs : List Char) : List Nat × List Char :=
  ((cs.takeWhile Char.isDigit).map digit, cs.dropWhile Char.isDigit)

/-- Digits are missing: reading finds the end of the text, skipping does not tell it from a wrong
character. -/
def withoutDigits (cs : List Char) : Source × Rest :=
  (broken (if cs.isEmpty then .truncated else .malformed) .malformed, none)

/-- The power of ten of a number, and with it the number. -/
def numberPower (negative : Bool) (whole : List Nat) (decimals : Option (List Nat))
    (cs : List Char) : Source × Rest :=
  let done (power : Option (Bool × List Nat)) (rest : List Char) : Source × Rest :=
    (number (Literal.value? ⟨negative, whole, decimals, power⟩), some rest)
  match cs with
  | 'e' :: cs | 'E' :: cs =>
    let (negativePower, cs) : Bool × List Char :=
      match cs with
      | '+' :: cs => (false, cs)
      | '-' :: cs => (true, cs)
      | cs => (false, cs)
    match digits cs with
    | ([], rest) => withoutDigits rest
    | (ds, rest) => done (some (negativePower, ds)) rest
  | cs => done none cs

/-- A number after its sign: digits without a leading zero, decimals, a power of ten. -/
def numberAfterSign (negative : Bool) (cs : List Char) : Source × Rest :=
  match digits cs with
  | ([], rest) => withoutDigits rest
  | (0 :: _ :: _, _) => (broken .malformed .malformed, none)
  | (whole, '.' :: rest) =>
    match digits rest with
    | ([], rest) => withoutDigits rest
    | (ds, rest) => numberPower negative whole (some ds) rest
  | (whole, rest) => numberPower negative whole none rest

/-! ## Strings -/

def hexValue? (c : Char) : Option Nat :=
  if '0' ≤ c && c ≤ '9' then some (c.toNat - '0'.toNat)
  else if 'a' ≤ c && c ≤ 'f' then some (c.toNat - 'a'.toNat + 10)
  else if 'A' ≤ c && c ≤ 'F' then some (c.toNat - 'A'.toNat + 10)
  else none

def unit? (a b c d : Char) : Option Nat := do
  return (((← hexValue? a) * 16 + (← hexValue? b)) * 16 + (← hexValue? c)) * 16 + (← hexValue? d)

/-- Four digits are missing: the text ends within the next four bytes, or one of them is wrong. -/
def withoutUnit (cs : List Char) : Flaw :=
  if (cs.take 4).foldl (fun n c => n + c.utf8Size) 0 < 4 then .truncated else .malformed

/-- The character of an escape with a letter of its own. -/
def letterEscape? (c : Char) : Option Char :=
  if c = '"' || c = '\\' || c = '/' then some c
  else if c = 'b' then some '\x08'
  else if c = 'f' then some '\x0c'
  else if c = 'n' then some '\n'
  else if c = 'r' then some '\r'
  else if c = 't' then some '\t'
  else none

/-- A string being read: its characters so far, last first, and the first half of a pair that waits
for the second.  There are no characters once an escape failed to spell one. -/
structure Spelling where
  chars : Option (List Char)
  half : Option Nat

namespace Spelling

def start : Spelling := ⟨some [], none⟩

/-- A half that waits is not followed by the other half. -/
def settle (s : Spelling) : Spelling := if s.half.isSome then ⟨none, none⟩ else s

/-- A character that stands for itself or is escaped by a letter. -/
def push (s : Spelling) (c : Char) : Spelling :=
  let s := s.settle
  { s with chars := s.chars.map (c :: ·) }

/-- A 16-bit unit: a character, the first half of a pair, or the second half of the pair begun. -/
def pushUnit (s : Spelling) (u : Nat) : Spelling :=
  match s.half with
  | some h =>
    if 0xDC00 ≤ u && u ≤ 0xDFFF then
      ⟨s.chars.map (Char.ofNat (0x10000 + (h - 0xD800) * 0x400 + (u - 0xDC00)) :: ·), none⟩
    else ⟨none, none⟩
  | none =>
    if 0xD800 ≤ u && u ≤ 0xDBFF then { s with half := some u }
    else if 0xDC00 ≤ u && u ≤ 0xDFFF then ⟨none, none⟩
    else { s with chars := s.chars.map (Char.ofNat u :: ·) }

def text (s : Spelling) : Option String := s.settle.chars.map (fun cs => String.ofList cs.reverse)

end Spelling

/-- Go through a string after its opening quote, up to its closing quote or its first flaw. -/
def spell (s : Spelling) : List Char → Spelling × Except Flaw (List Char)
  | [] => (s, .error .truncated)
  | c :: cs =>
    if c = '"' then (s.settle, .ok cs)
    else if c = '\\' then
      match cs with
      | [] => (s, .error .truncated)
      | e :: cs =>
        if e = 'u' then
          match cs with
          | a :: b :: c :: d :: cs =>
            match unit? a b c d with
            | some u => spell (s.pushUnit u) cs
            | none => (s, .error (withoutUnit (a :: b :: c :: d :: cs)))
          | cs => (s, .error (withoutUnit cs))
        else
          match letterEscape? e with
          | some c => spell (s.push c) cs
          | none => (s.settle, .error .malformed)
    else if c.toNat < 0x20 then (s.settle, .error .malformed)
    else spell (s.push c) cs

/-- The flaw that reading a string finds first: an escape that spells nothing comes before what
broke the string. -/
def readingFlaw (s : Spelling) (flaw : Flaw) : Flaw := if s.chars.isNone then .malformed else flaw

def stringAfterQuote (cs : List Char) : Source × Rest :=
  match spell .start cs with
  | (s, .ok rest) => (string s.text, some rest)
  | (s, .error flaw) => (brokenString (readingFlaw s flaw) flaw, none)

/-! ## Containers -/

mutual

def layOut : Nat → List Char → Source × Rest
  | 0, _ => (missing, none)
  | fuel + 1, cs =>
    match afterGap cs with
    | [] => (missing, none)
    | 'n' :: cs => word ['u', 'l', 'l'] null cs
    | 't' :: cs => word ['r', 'u', 'e'] (bool true) cs
    | 'f' :: cs => word ['a', 'l', 's', 'e'] (bool false) cs
    | '"' :: cs => stringAfterQuote cs
    | '-' :: cs => numberAfterSign true cs
    | '[' :: cs =>
      match afterGap cs with
      | [] => (array [] (.cut .truncated), none)
      | ']' :: rest => (array [] .closed, some rest)
      | cs =>
        let (items, ending, rest) := layOutItems fuel cs
        (array items ending, rest)
    | '{' :: cs =>
      match afterGap cs with
      | [] => (object [] (.cut .truncated), none)
      | '}' :: rest => (object [] .closed, some rest)
      | '"' :: cs =>
        let (members, ending, rest) := layOutMembers fuel ('"' :: cs)
        (object members ending, rest)
      | cs => (unnamed (layOut fuel cs).1, none)
    | c :: cs =>
      if c.isDigit then numberAfterSign false (c :: cs)
      else (broken .malformed .malformed, none)

/-- The items of an array from one that must be there. -/
def layOutItems : Nat → List Char → List Source × Ending × Rest
  | 0, _ => ([], .cut .malformed, none)
  | fuel + 1, cs =>
    match layOut fuel cs with
    | (x, none) => ([x], .cut .malformed, none)
    | (x, some rest) =>
      match afterGap rest with
      | [] => ([x], .cut .truncated, none)
      | ',' :: rest =>
        let (xs, ending, rest) := layOutItems fuel rest
        (x :: xs, ending, rest)
      | ']' :: rest => ([x], .closed, some rest)
      | _ => ([x], .cut .malformed, none)

/-- The members of an object from one that must be there. -/
def layOutMembers : Nat → List Char → List (Except Flaw String × Source) × Ending × Rest
  | 0, _ => ([], .cut .malformed, none)
  | fuel + 1, cs =>
    let flawed (reading skipping : Flaw) : List (Except Flaw String × Source) × Ending × Rest :=
      ([(.error reading, broken skipping skipping)], .cut .malformed, none)
    match afterGap cs with
    | [] => flawed .truncated .truncated
    | '"' :: cs =>
      match spell .start cs with
      | (s, .error flaw) => flawed (readingFlaw s flaw) flaw
      | (s, .ok rest) =>
        let name : Except Flaw String :=
          match s.text with
          | some text => .ok text
          | none => .error .malformed
        match afterGap rest with
        | [] => ([(name, missing)], .cut .malformed, none)
        | ':' :: rest =>
          match layOut fuel rest with
          | (x, none) => ([(name, x)], .cut .malformed, none)
          | (x, some rest) =>
            match afterGap rest with
            | [] => ([(name, x)], .cut .truncated, none)
            | ',' :: rest =>
              let (xs, ending, rest) := layOutMembers fuel rest
              ((name, x) :: xs, ending, rest)
            | '}' :: rest => ([(name, x)], .closed, some rest)
            | _ => ([(name, x)], .cut .malformed, none)
        | _ => ([(name, broken .malformed .malformed)], .cut .malformed, none)
    | _ => flawed .malformed .malformed

end

end Source

/-- A whole text: its value, and whether anything but a gap follows it. -/
structure SourceText where
  root : Source
  hasMore : Bool

/-- Lay out a text.  Every step takes a character or opens a container, so its length bounds the
steps. -/
def SourceText.ofString (text : String) : SourceText :=
  let cs := text.toList
  match Source.layOut (2 * cs.length + 2) cs with
  | (root, none) => ⟨root, false⟩
  | (root, some rest) => ⟨root, !(Source.afterGap rest).isEmpty⟩

def SourceText.checkEnd (t : SourceText) : Except Flaw Unit :=
  if t.hasMore then .error .malformed else .ok ()

/-- **Read a text as a value.** -/
def Json.read (text : String) : Except Flaw Json := do
  let t := SourceText.ofString text
  let value ← t.root.toJson (.text Medium.levelLimit)
  t.checkEnd
  return value

end Schemata
