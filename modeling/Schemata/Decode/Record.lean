import Schemata.Decode.Basic
/-!
# Records — named fields, or the same fields in their order

A record is written as an object with named fields, or as an array of the fields in order of
declaration.  Fields are read in the order in which they stand; each may stand once, under its name
or another name of it.  Of an object, unknown names are skipped, unless the record keeps them.  What
is missing keeps its default, if it has one.
-/
namespace Schemata

/-- How a record with fields `φ` and content `α` is read. -/
structure Record (φ α : Type) where
  /-- What the record is called in messages. -/
  title : String
  /-- The fields in order of declaration. -/
  fields : List φ
  /-- The field's main name. -/
  name : φ → String
  /-- The field under a name, or another name of it. -/
  field? : String → Option φ
  /-- Has the field no default? -/
  isRequired : φ → Bool
  /-- Read a field, to be set in the record. -/
  read : Medium → φ → Source → Decoded (α → α)
  /-- What is done with an unknown name, if it is not skipped. -/
  keep : Option (String → Json → α → α) := none
  /-- May an array stand for the record? -/
  positional : Bool := true

namespace Record

variable {φ α : Type} [DecidableEq φ]

/-- Read members into a record; `seen` are the fields read so far. -/
def readMembers (r : Record φ α) (medium : Medium) :
    List (Except Flaw String × Source) → List φ → α → Decoded (List φ × α)
  | [], seen, a => .ok (seen, a)
  | (name, x) :: rest, seen, a => do
    let name ← Decoded.ofRead name
    match r.field? name with
    | some f =>
      if f ∈ seen then .error (.duplicateField (r.name f)) else
      let set ← r.read medium f x
      readMembers r medium rest (f :: seen) (set a)
    | none =>
      match r.keep with
      | some keep =>
        let value ← Decode.json medium x
        readMembers r medium rest seen (keep name value a)
      | none =>
        Decoded.ofRead x.skip
        readMembers r medium rest seen a

/-- What an array too short for the record is told. -/
def expectedLength (r : Record φ α) : String :=
  r.title ++ " with " ++ toString r.fields.length ++ " elements"

/-- Read items into the fields at their positions; `index` fields were read so far. -/
def readItems (r : Record φ α) (medium : Medium) (ending : Ending) :
    List φ → List Source → Nat → α → Decoded α
  | [], [], _, a => do
    Decoded.ofRead ending.check
    return a
  | [], rest, index, _ =>
    match medium with
    | .value => .error (.tooLong (index + rest.length))
    | .text _ => .error (.flawed .malformed)
  | f :: fs, [], index, a => do
    Decoded.ofRead ending.check
    if r.isRequired f then .error (.tooShort index r.expectedLength)
    else readItems r medium ending fs [] (index + 1) a
  | f :: fs, x :: xs, index, a => do
    let set ← r.read medium f x
    readItems r medium ending fs xs (index + 1) (set a)

/-- **Read a record**, starting from its defaults. -/
def decode (r : Record φ α) (medium : Medium) (default : α) : Source → Decoded α
  | .object members ending => do
    let inner ← Decoded.ofRead medium.enter
    let (seen, a) ← r.readMembers inner members [] default
    Decoded.ofRead ending.check
    match r.fields.find? fun f => r.isRequired f && f ∉ seen with
    | some f => .error (.missingField (r.name f))
    | none => return a
  | .unnamed _ => do
    let _ ← Decoded.ofRead medium.enter
    .error (.flawed .malformed)
  | .array items ending =>
    if r.positional then do
      let inner ← Decoded.ofRead medium.enter
      r.readItems inner ending r.fields items 0 default
    else .error (Decode.mismatch r.title (.array items ending))
  | s => .error (Decode.mismatch r.title s)

end Record
end Schemata
