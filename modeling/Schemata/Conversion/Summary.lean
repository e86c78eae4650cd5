import Schemata.Conversion.Handler
import Schemata.Text.Quoted
/-!
# Summary — the options of a conversion, and how they read

Options are settings with handlers, which are code.  Where options are shown to a person they are one
line: every setting by name, the handlers as the sorted names of their types.
-/
namespace Schemata

/-- The choices of a conversion, and its handlers by type name. -/
structure Options extends Settings where
  handlers : Members Handler := []
  /-- How many conversions of descriptions from elsewhere may run inside one another, so that handlers
  that ask without end come to one.  Any number does that they do not reach. -/
  nesting : Nat := 1000
  /-- The error of the one beyond. -/
  tooDeep : ConvertError := .unsupported "deeper nesting"

namespace Options

/-- Give a type a handler, in place of the one it had. -/
def withHandler (o : Options) (typeName : String) (handler : Handler) : Options :=
  { o with handlers := Members.insert o.handlers typeName handler }

def validate (o : Options) : Except SettingsError Options :=
  o.toSettings.validate.map fun settings => { o with toSettings := settings }

/-- What converts a type: its handler, or the kind of that name if it has none. -/
def resolve (o : Options) (typeName : String) : Option (Handler ⊕ Kind) :=
  match Members.get? o.handlers typeName with
  | some handler => some (.inl handler)
  | none => (Kind.ofName? typeName).map .inr

end Options

/-! ## In one line -/

def IpFormat.summary : IpFormat → String
  | ipv4 => "Ipv4"
  | ipv6 => "Ipv6"

def Settings.yesNo (b : Bool) : String := if b then "true" else "false"

/-- The names of the types with handlers, in order of their characters. -/
def Options.typeNames (o : Options) : List String :=
  (Members.names o.handlers).mergeSort fun a b => decide (a ≤ b)

/-- **Options in one line.** -/
def Options.summary (o : Options) : String :=
  "ConversionOptions \x7b types: [" ++ ", ".intercalate (o.typeNames.map Quoted.encode)
    ++ "], ip_format: "
    ++ o.ipFormat.summary ++ ", extract: " ++ Settings.yesNo o.extract ++ ", extract_path: "
    ++ Quoted.encode o.extractPath
    ++ ", ignore_unknown_rules: " ++ Settings.yesNo o.ignoreUnknownRules
    ++ ", ignore_unknown_types: " ++ Settings.yesNo o.ignoreUnknownTypes ++ " \x7d"

end Schemata
