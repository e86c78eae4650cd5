import Schemata.Decode.Error
/-!
# Decoding single values

A reader takes a source of one kind and refuses the others by name.  A flawed scalar is reported as
its flaw; a container of the wrong kind is refused without looking inside.
-/
namespace Schemata
namespace Decode

/-- The refusal of a source where something else was expected. -/
def mismatch (expected : String) : Source → DecodeError
  | .null => .wrongType .null expected
  | .bool b => .wrongType (.boolean b) expected
  | .number (some x) => .wrongType (.number x) expected
  | .number none => .flawed .malformed
  | .string (some s) => .wrongType (.string s) expected
  | .string none => .flawed .malformed
  | .array _ _ => .wrongType .sequence expected
  | .object _ _ => .wrongType .map expected
  | .unnamed _ => .wrongType .map expected
  | .brokenString reading _ => .flawed reading
  | .broken reading _ => .flawed reading
  | .missing => .flawed .truncated

def string : Source → Decoded String
  | .string (some s) => .ok s
  | s => .error (mismatch "a string" s)

def boolean : Source → Decoded Bool
  | .bool b => .ok b
  | s => .error (mismatch "a boolean" s)

def unit : Source → Decoded Unit
  | .null => .ok ()
  | s => .error (mismatch "unit" s)

def optional {α : Type} (read : Source → Decoded α) : Source → Decoded (Option α)
  | .null => .ok none
  | s => (read s).map some

def json (medium : Medium) (s : Source) : Decoded Json := .ofRead (s.toJson medium)

/-- A list; its items are read one level further in. -/
def sequence {α : Type} (medium : Medium) (item : Medium → Source → Decoded α) :
    Source → Decoded (List α)
  | .array items ending => do
    let inner ← Decoded.ofRead medium.enter
    let xs ← items.mapM (item inner)
    Decoded.ofRead ending.check
    return xs
  | s => .error (mismatch "a sequence" s)

def members (medium : Medium) : Source → Decoded (Members Json)
  | .object members ending => do
    let inner ← Decoded.ofRead medium.enter
    let members ← Decoded.ofRead (Source.toMembers inner [] members)
    Decoded.ofRead ending.check
    return members
  | .unnamed _ => do
    let _ ← Decoded.ofRead medium.enter
    .error (.flawed .malformed)
  | s => .error (mismatch "a map" s)

/-- Named values in the order in which they stand; a repeated name is kept as often as it stands. -/
def mapping {α : Type} (medium : Medium) (expected : String)
    (item : Medium → Source → Decoded α) :
    Source → Decoded (List (String × α))
  | .object members ending => do
    let inner ← Decoded.ofRead medium.enter
    let xs ← members.mapM fun m => do
      let name ← Decoded.ofRead m.1
      let x ← item inner m.2
      return (name, x)
    Decoded.ofRead ending.check
    return xs
  | .unnamed _ => do
    let _ ← Decoded.ofRead medium.enter
    .error (.flawed .malformed)
  | s => .error (mismatch expected s)

/-- A choice among named ones: its name, or an object whose only member is that name with null.  A
text and a value differ in what else they refuse, and how. -/
def choice {α : Type} (medium : Medium) (known : String → Decoded α) : Source → Decoded α
  | .string (some s) => known s
  | .string none => .error (.flawed .malformed)
  | .brokenString reading _ => .error (.flawed reading)
  | .missing => .error (.flawed .truncated)
  | .object members ending =>
    match medium with
    | .value =>
      match members with
      | [(.ok name, x)] => do
        let a ← known name
        unit x
        return a
      | _ => .error .wrongChoice
    | .text levels => do
      let _ ← Decoded.ofRead (Medium.text levels).enter
      match members with
      | [] => .error (.flawed (match ending with | .closed => .malformed | .cut flaw => flaw))
      | (name, x) :: more => do
        let a ← known (← Decoded.ofRead name)
        unit x
        if !more.isEmpty then .error (.flawed .malformed)
        Decoded.ofRead ending.check
        return a
  | .unnamed found => do
    let _ ← Decoded.ofRead medium.enter
    .error (mismatch "variant identifier" found)
  | s =>
    match medium with
    | .value => .error (mismatch "string or map" s)
    | .text _ => .error (.flawed .malformed)

end Decode
end Schemata
