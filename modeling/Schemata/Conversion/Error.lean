import Schemata.Decode.Error
/-!
# ConvertError — why a description is refused

Either the input is no description at all, or it says something that JSON Schema cannot express.
-/
namespace Schemata

/-- Why the input is no description. -/
inductive ShapeProblem where
  /-- It has no mark of a schema. -/
  | unmarked
  | undecodable (error : DecodeError)
  /-- A rule with a pattern has no pattern text. -/
  | ruleWithoutPattern (rule : String)
  | keyPatternWithoutKey
  | withDependencyWithoutKey
  deriving DecidableEq

def ShapeProblem.message : ShapeProblem → String
  | unmarked => "value does not describe a schema"
  | undecodable error => error.message
  | ruleWithoutPattern rule => "string rule:" ++ rule ++ " has no pattern"
  | keyPatternWithoutKey => "object pattern needs a regex or a key schema"
  | withDependencyWithoutKey => "object dependency:with needs a key"

/-- Why a conversion fails. -/
inductive ConvertError where
  | notASchema (problem : ShapeProblem)
  | unknownType (typeName : String)
  | unknownRule (typeName rule : String)
  /-- A construct that is known but has no counterpart. -/
  | unsupported (construct : String)
  deriving DecidableEq

namespace ConvertError

/-- Is it the input's shape that is wrong, rather than what it says? -/
def isInputShape : ConvertError → Bool
  | notASchema _ => true
  | _ => false

def message : ConvertError → String
  | notASchema problem => "schema must be a Joi object: " ++ problem.message
  | unknownType typeName => "unknown type for Joi object: " ++ typeName
  | unknownRule typeName rule => typeName ++ " rule:" ++ rule ++ " is not supported by JSON Schema"
  | unsupported construct => construct ++ " is not supported by JSON Schema"

end ConvertError
end Schemata
