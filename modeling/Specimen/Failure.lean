import Specimen.Counter.Conversion
import Specimen.Params
import Specimen.Provider.Error
import Specimen.Regex.Token
/-!
# Failures

Why a handler cannot make a value. A failure inside a description never ends a generation: the
node that fails becomes null.
-/

namespace Specimen

inductive Failure where
  /-- The parameters of a handler, named by `context`, cannot be read. -/
  | parameters (context : String) (cause : Params.Error)
  | integerBounds (low high : Int)
  | lengthBounds (low high : Int)
  | emptyAlphabet
  | counter (cause : Counter.Error)
  | unknownEncoding (name : String)
  | synthesis (cause : Regex.PatternError)
  | provider (cause : Provider.Error)
  /-- A failure that the description asks for. -/
  | requested (text : String)

/-- What a failure says. -/
def Failure.message : Failure → String
  | parameters context cause => "invalid spec: " ++ context ++ ": " ++ cause.message
  | integerBounds low high =>
    s!"invalid spec: integer: min_val {low} must be <= max_val {high}"
  | lengthBounds low high => s!"invalid spec: string: invalid length bounds [{low}, {high}]"
  | emptyAlphabet => "invalid spec: string: alphabet must not be empty"
  | counter cause => "invalid spec: string/enum: " ++ cause.message
  | unknownEncoding name => "unsupported feature: string: unknown encoding '" ++ name ++ "'"
  | synthesis cause => "regex synthesis failed: " ++ cause.message
  | provider cause => "provider error: " ++ cause.message
  | requested text => "invalid spec: " ++ text

end Specimen
