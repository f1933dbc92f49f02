import Specimen.Json.Reader
/-!
# Documents

A document is a file with a description in JSON. Its text is UTF-8, and
its value must be an object.
-/

namespace Specimen.Document

/-- Why a document cannot be used. -/
inductive Error where
  /-- The file cannot be read as text. -/
  | unreadable
  | notJson
  | notMapping (path : String)
  deriving DecidableEq, Repr

def Error.message : Error → String
  | unreadable => "io error"
  | notJson => "json error"
  | notMapping path => "invalid spec: top-level spec in " ++ path ++ " must be a mapping"

/-- How many containers may lie inside each other. -/
def depthLimit : Nat := 127

/-- The description in a file, given its bytes if there are any. -/
def read (path : String) (bytes : Option ByteArray) : Except Error Json :=
  match bytes.bind String.fromUTF8? with
  | none => .error .unreadable
  | some text =>
    match Json.read? text depthLimit with
    | none => .error .notJson
    | some v => if v.obj?.isSome then .ok v else .error (.notMapping path)

end Specimen.Document
