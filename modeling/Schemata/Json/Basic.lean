import Schemata.Members
import Schemata.Number.Basic
/-!
# Json — values

A value keeps the order of its members and the form of its numbers.  Equality is equality of both:
`1` differs from `1.0`, and objects with the same members in another order differ.
-/
namespace Schemata

/-- A JSON value. -/
inductive Json where
  | null
  | bool (b : Bool)
  | number (x : Number)
  | string (s : String)
  | array (items : List Json)
  | object (members : List (String × Json))
  deriving Inhabited

namespace Json

mutual

def decEq : (a b : Json) → Decidable (a = b)
  | .null, .null => .isTrue rfl
  | .bool a, .bool b =>
    if h : a = b then .isTrue (h ▸ rfl) else .isFalse (fun e => h (bool.inj e))
  | .number a, .number b =>
    if h : a = b then .isTrue (h ▸ rfl) else .isFalse (fun e => h (number.inj e))
  | .string a, .string b =>
    if h : a = b then .isTrue (h ▸ rfl) else .isFalse (fun e => h (string.inj e))
  | .array a, .array b =>
    match decEqItems a b with
    | .isTrue h => .isTrue (h ▸ rfl)
    | .isFalse h => .isFalse (fun e => h (array.inj e))
  | .object a, .object b =>
    match decEqMembers a b with
    | .isTrue h => .isTrue (h ▸ rfl)
    | .isFalse h => .isFalse (fun e => h (object.inj e))
  | .null, .bool _ | .null, .number _ | .null, .string _ | .null, .array _ | .null, .object _ =>
    .isFalse nofun
  | .bool _, .null | .bool _, .number _ | .bool _, .string _ | .bool _, .array _
  | .bool _, .object _ =>
    .isFalse nofun
  | .number _, .null | .number _, .bool _ | .number _, .string _ | .number _, .array _
  | .number _, .object _ =>
    .isFalse nofun
  | .string _, .null | .string _, .bool _ | .string _, .number _ | .string _, .array _
  | .string _, .object _ =>
    .isFalse nofun
  | .array _, .null | .array _, .bool _ | .array _, .number _ | .array _, .string _
  | .array _, .object _ =>
    .isFalse nofun
  | .object _, .null | .object _, .bool _ | .object _, .number _ | .object _, .string _
  | .object _, .array _ => .isFalse nofun

def decEqItems : (a b : List Json) → Decidable (a = b)
  | [], [] => .isTrue rfl
  | [], _ :: _ => .isFalse nofun
  | _ :: _, [] => .isFalse nofun
  | x :: xs, y :: ys =>
    match decEq x y with
    | .isFalse h => .isFalse (fun e => h (List.cons.inj e).1)
    | .isTrue h =>
      match decEqItems xs ys with
      | .isTrue hs => .isTrue (h ▸ hs ▸ rfl)
      | .isFalse hs => .isFalse (fun e => hs (List.cons.inj e).2)

def decEqMembers : (a b : List (String × Json)) → Decidable (a = b)
  | [], [] => .isTrue rfl
  | [], _ :: _ => .isFalse nofun
  | _ :: _, [] => .isFalse nofun
  | (m, x) :: xs, (n, y) :: ys =>
    if hn : m = n then
      match decEq x y with
      | .isFalse h => .isFalse (fun e => h (Prod.mk.inj (List.cons.inj e).1).2)
      | .isTrue h =>
        match decEqMembers xs ys with
        | .isTrue hs => .isTrue (hn ▸ h ▸ hs ▸ rfl)
        | .isFalse hs => .isFalse (fun e => hs (List.cons.inj e).2)
    else .isFalse (fun e => hn (Prod.mk.inj (List.cons.inj e).1).1)

end

instance : DecidableEq Json := decEq

/-! ## Parts of a value -/

def isNull : Json → Bool
  | null => true
  | _ => false

def string? : Json → Option String
  | string s => some s
  | _ => none

def members? : Json → Option (Members Json)
  | object ms => some ms
  | _ => none

def field? : Json → String → Option Json
  | object ms, name => Members.get? ms name
  | _, _ => none

/-- Does the value count as set?  Null, false, zero and the empty string do not. -/
def truthy : Json → Bool
  | null => false
  | bool b => b
  | number x => !x.isZero
  | string s => !s.isEmpty
  | array _ => true
  | object _ => true

mutual

/-- How deep containers are nested: none in a scalar, one in an empty array. -/
def depth : Json → Nat
  | array items => depthItems items + 1
  | object members => depthMembers members + 1
  | _ => 0

def depthItems : List Json → Nat
  | [] => 0
  | x :: xs => max (depth x) (depthItems xs)

def depthMembers : List (String × Json) → Nat
  | [] => 0
  | (_, x) :: xs => max (depth x) (depthMembers xs)

end

end Json
end Schemata
