import Schemata.Description.Basic
/-!
# Building descriptions

A description starts bare and grows by one part at a time.
-/
namespace Schemata

namespace Description

def ofType (typeName : String) : Description := { typeName }

def withRule (d : Description) (name : String) (arg : Json) : Description :=
  { d with rules := d.rules ++ [{ name, arg }] }

def withFlags (d : Description) (flags : Flags) : Description := { d with flags }

def withValids (d : Description) (valids : List Json) : Description :=
  { d with valids := d.valids ++ valids }

def withMeta (d : Description) (fragment : Members Json) : Description :=
  { d with metas := some (d.metas.getD [] ++ [fragment]) }

def withLabel (d : Description) (label : String) : Description := { d with label := some label }

def withDescription (d : Description) (text : String) : Description :=
  { d with description := some text }

def withItem (d item : Description) : Description :=
  { d with items := some (d.items.getD [] ++ [item]) }

def withOrderedItem (d item : Description) : Description :=
  { d with orderedItems := some (d.orderedItems.getD [] ++ [item]) }

def withChild (d : Description) (key : String) (child : Description) : Description :=
  { d with children := some (d.children.getD [] ++ [(key, child)]) }

def withAlternative (d branch : Description) : Description :=
  { d with alternatives := some (d.alternatives.getD [] ++ [.schema branch]) }

end Description
end Schemata
