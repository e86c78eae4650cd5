import Schemata.Members
/-!
# Toml — documents of tables

A document is a table of values by name.  How a table came about decides what may still be added to
it: a header or an inline table closes it for dotted keys, a dotted key closes it for headers, and a
table that is only on the way to another may be opened once.
-/
namespace Schemata
namespace Toml

/-- How a table came about. -/
inductive Origin where
  /-- By a header of its own. -/
  | header
  /-- On the way to another header. -/
  | implied
  /-- On the way to a value, by a dotted key. -/
  | dotted
  /-- Written out in braces. -/
  | inline
  deriving DecidableEq

/-- A value.  Of numbers and times only what is asked for is kept. -/
inductive Value where
  | string (s : String)
  | boolean (b : Bool)
  | number
  | moment
  | array (items : List Value)
  | table (origin : Origin) (members : List (String × Value))
  /-- Tables opened one after the other under one header; the last one is being filled. -/
  | tables (before : List (List (String × Value))) (last : List (String × Value))

namespace Value

def isEmptyContainer : Value → Bool
  | array items => items.isEmpty
  | table _ members => members.isEmpty
  | _ => false

end Value

abbrev Table : Type := List (String × Value)

/-- A table on the way to a value: dotted keys may pass through tables that no header or brace
closed. -/
def throughDotted : Option Value → Option (Origin × Table)
  | none => some (.dotted, [])
  | some (.table .dotted ms) => some (.dotted, ms)
  | some (.table .implied ms) => some (.implied, ms)
  | some _ => none

def put? (value : Value) : List String → Table → Option Table
  | [], _ => none
  | [name], ms => if Members.contains ms name then none else some (ms ++ [(name, value)])
  | name :: names, ms => do
    let (origin, inner) ← throughDotted (Members.get? ms name)
    let inner ← put? value names inner
    return Members.insert ms name (.table origin inner)

def change? (f : Table → Option Table) : List String → Table → Option Table
  | [], ms => f ms
  | name :: names, ms =>
    match Members.get? ms name with
    | none => do
      let inner ← change? f names []
      return Members.insert ms name (.table .implied inner)
    | some (.table .inline _) => none
    | some (.table origin inner) => do
      let inner ← change? f names inner
      return Members.insert ms name (.table origin inner)
    | some (.tables before last) => do
      let last ← change? f names last
      return Members.insert ms name (.tables before last)
    | some _ => none

/-- Open a table by its header: a new one, or one that was only on the way. -/
def openTable? (name : String) (ms : Table) : Option Table :=
  match Members.get? ms name with
  | none => some (ms ++ [(name, .table .header [])])
  | some (.table .implied inner) => some (Members.insert ms name (.table .header inner))
  | some _ => none

def openNext? (name : String) (ms : Table) : Option Table :=
  match Members.get? ms name with
  | none => some (ms ++ [(name, .tables [] [])])
  | some (.tables before last) => some (Members.insert ms name (.tables (before ++ [last]) []))
  | some _ => none

end Toml
end Schemata
