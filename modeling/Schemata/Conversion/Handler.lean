import Schemata.Keywords.Below
import Schemata.Keywords.Bound
import Schemata.Keywords.Scalar
import Schemata.Keywords.Text
import Schemata.Kind
/-!
# Handler — conversions of one's own

A handler takes the place of a kind, or gives a conversion to a type that has none.  What it does is
a program of few steps: finish, fail, hand the node to a kind, or convert another description.  So a
handler reaches the registry only through the conversions it asks for.  It is told what came of each,
and may go on after one that failed.
-/
namespace Schemata

/-- **A node of a kind**: what the kind makes of the fragment that it is handed. -/
def Kind.convert (kind : Kind) (settings : Settings) (t : Traits) (below : Below)
    (f : Fragment) : Conversion Fragment :=
  match kind with
  | .string => Conversion.lift (Keywords.applyString settings t f)
  | .number => Conversion.lift (Keywords.applyNumber settings t f)
  | .boolean => Conversion.lift (Keywords.applyBoolean settings t f)
  | .binary => Conversion.lift (Keywords.applyBinary settings t f)
  | .date => Conversion.lift (Keywords.applyDate settings t f)
  | .array => Keywords.applyArray settings t below f
  | .object => Keywords.applyObject settings t below f
  | .alternatives => Keywords.applyAlternatives settings t below.branches f

/-- What a handler does with a node. -/
inductive Handling where
  /-- Done, with a fragment or with none, which drops the node. -/
  | finish (result : Option Fragment)
  | fail (error : ConvertError)
  /-- Let a kind convert the node at hand over a fragment, and go on with what came of it. -/
  | delegate (kind : Kind) (f : Fragment) (next : Except ConvertError Fragment → Handling)
  /-- Convert another description, and go on with what came of it: a schema, or none when it is
  dropped, or the error it failed with. -/
  | convert (description : Description) (next : Except ConvertError (Option Json) → Handling)

namespace Handling

/-- Go on with a result, and fail with an error. -/
def onResult {α : Type} (next : α → Handling) : Except ConvertError α → Handling
  | .ok a => next a
  | .error e => fail e

/-- Do what a handler says: `ofKind` converts the node at hand, `other` any other description. -/
def run (ofKind : Kind → Fragment → Conversion Fragment)
    (other : Description → Conversion (Option Json)) :
    Handling → Conversion (Option Fragment)
  | finish result => pure result
  | fail error => Conversion.fail error
  | delegate kind f next => do
    let result ← (ofKind kind f).attempt
    (next result).run ofKind other
  | convert description next => do
    let result ← (other description).attempt
    (next result).run ofKind other

end Handling

/-- A conversion of one's own: from the settings, the node and the keywords so far. -/
abbrev Handler : Type := Settings → Description → Fragment → Handling

end Schemata
