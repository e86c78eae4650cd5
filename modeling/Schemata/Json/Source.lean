import Schemata.Json.Basic
/-!
# Source — JSON as it is read

A text is first laid out as a tree in which every flaw stays at its place, so that laying out never
fails.  What the tree means is decided by whoever goes through it, from the left: a part that is
*read* must be flawless and may be nested only so deep, a part that is *skipped* need only be well
formed.  A value is a tree without flaws, so a description is decoded from text and from a value by
the same rules.
-/
namespace Schemata

/-- What can be wrong with a text. -/
inductive Flaw where
  /-- It is not JSON, or says more than can be represented. -/
  | malformed
  /-- It ends too early. -/
  | truncated
  deriving DecidableEq, Repr

/-- How a container ends: with its bracket, or with a flaw where a comma or the bracket should
stand. -/
inductive Ending where
  | closed
  | cut (flaw : Flaw)
  deriving DecidableEq, Repr

def Ending.check : Ending → Except Flaw Unit
  | .closed => .ok ()
  | .cut flaw => .error flaw

/-- JSON laid out with its flaws.  After a comma there is always a further item or member, if only a
flawed one. -/
inductive Source where
  | null
  | bool (b : Bool)
  /-- A number; nothing when it is out of range. -/
  | number (x : Option Number)
  /-- A string; nothing when its escapes do not spell characters. -/
  | string (s : Option String)
  | array (items : List Source) (ending : Ending)
  /-- Members with their names; a name that cannot be read keeps its flaw. -/
  | object (members : List (Except Flaw String × Source)) (ending : Ending)
  /-- An object that starts with something else than a name. -/
  | unnamed (found : Source)
  /-- A string with a flaw: the one that reading finds first and the one that skipping finds. -/
  | brokenString (reading skipping : Flaw)
  /-- Anything else with a flaw. -/
  | broken (reading skipping : Flaw)
  /-- The text ends where a value should stand. -/
  | missing

/-- What is being gone through: a value, or a text of which so many levels may still be opened. -/
inductive Medium where
  | value
  | text (levels : Nat)
  deriving DecidableEq

def Medium.enter : Medium → Except Flaw Medium
  | value => .ok value
  | text 0 => .error .malformed
  | text (levels + 1) => .ok (text levels)

def Medium.levelLimit : Nat := 127

namespace Source

mutual

def ofJson : Json → Source
  | .null => null
  | .bool b => bool b
  | .number x => number (some x)
  | .string s => string (some s)
  | .array items => array (ofItems items) .closed
  | .object members => object (ofMembers members) .closed

def ofItems : List Json → List Source
  | [] => []
  | x :: xs => ofJson x :: ofItems xs

def ofMembers : List (String × Json) → List (Except Flaw String × Source)
  | [] => []
  | (n, x) :: xs => (.ok n, ofJson x) :: ofMembers xs

end

mutual

/-- **Read a value.**  A repeated name keeps its first place and its last value. -/
def toJson (medium : Medium) : Source → Except Flaw Json
  | null => .ok .null
  | bool b => .ok (.bool b)
  | number (some x) => .ok (.number x)
  | number none => .error .malformed
  | string (some s) => .ok (.string s)
  | string none => .error .malformed
  | array items ending => do
    let inner ← medium.enter
    let items ← toItems inner items
    ending.check
    return .array items
  | object members ending => do
    let inner ← medium.enter
    let members ← toMembers inner [] members
    ending.check
    return .object members
  | unnamed _ => .error .malformed
  | brokenString reading _ => .error reading
  | broken reading _ => .error reading
  | missing => .error .truncated

def toItems (medium : Medium) : List Source → Except Flaw (List Json)
  | [] => .ok []
  | x :: xs => do
    let y ← toJson medium x
    let ys ← toItems medium xs
    return y :: ys

def toMembers (medium : Medium) (before : Members Json) :
    List (Except Flaw String × Source) → Except Flaw (Members Json)
  | [] => .ok before
  | (name, x) :: xs => do
    let name ← name
    let y ← toJson medium x
    toMembers medium (Members.insert before name y) xs

end

mutual

/-- **Skip a value**: neither names nor numbers are read, and nesting has no limit. -/
def skip : Source → Except Flaw Unit
  | array items ending => do
    skipItems items
    ending.check
  | object members ending => do
    skipMembers members
    ending.check
  | unnamed _ => .error .malformed
  | brokenString _ skipping => .error skipping
  | broken _ skipping => .error skipping
  | missing => .error .truncated
  | _ => .ok ()

def skipItems : List Source → Except Flaw Unit
  | [] => .ok ()
  | x :: xs => do
    skip x
    skipItems xs

/-- Skip members; a name that cannot be read is followed by a value that cannot be skipped. -/
def skipMembers : List (Except Flaw String × Source) → Except Flaw Unit
  | [] => .ok ()
  | (_, x) :: xs => do
    skip x
    skipMembers xs

end

end Source
end Schemata
