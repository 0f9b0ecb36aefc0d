import Conform.Json.Reader
import Conform.Wire.Reading

namespace Conform

/-- Why a schema document cannot be used. -/
inductive DocumentError where
  | notJson (failure : SyntaxFailure)
  | notSchema (error : ReadError)
  | setup (error : SetupError)
  deriving DecidableEq, Repr

def DocumentError.message : DocumentError → String
  | notJson failure => "invalid JSON: " ++ failure.message
  | notSchema error => "at JSON path " ++ error.path ++ " → " ++ error.message
  | setup error => error.message

namespace Schema

/-- A document is a list of schemas or one schema. -/
def readDocument : Json → Reading (List (Schema WireType))
  | .arr items => Reading.each Schema.read 0 items
  | value => (Schema.read value).map fun s => [s]

/-- The schemas of a document as it writes them. -/
def parseDocument (source : String) : Except DocumentError (List (Schema WireType)) :=
  match Json.read source with
  | .error failure => .error (.notJson failure)
  | .ok value => (readDocument value).mapError .notSchema

/-- The schemas that a document means. -/
def ofDocument (source : String) : Except DocumentError (List Schema) := do
  let schemas ← parseDocument source
  (lowerAll schemas).mapError .setup

end Schema

end Conform
