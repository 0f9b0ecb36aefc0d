import Conform.Filter.Reader

namespace Conform

inductive FilterError where
  | notFilter
  | undefined (names : List String)
  | failed (source : String)
  | notJson (source : String) (cause : SyntaxFailure)
  deriving DecidableEq, Repr

def FilterError.message : FilterError → String
  | notFilter => "parse error"
  | undefined names => "\n".intercalate (names.map fun name => "undefined `" ++ name ++ "`")
  | failed source => "jq `" ++ source ++ "` failed"
  | notJson source _ => "jq `" ++ source ++ "` produced a non-JSON value"

/-- What a filter does with a document: it makes any number of documents of it, or fails. -/
abbrev DocumentFilter := Json → Except FilterError (List Json)

/-- A language that filters are written in. -/
abbrev FilterLanguage := String → Except FilterError DocumentFilter

/-- An interpreter of a language: it refuses the text of a filter, or gives what the filter puts out for an input. An
output comes as text, and one that failed as none. -/
abbrev Interpreter := String → Except FilterError (Json → List (Option String))

/-- Knows the filters that were read and use no names but known ones. -/
def Filter.interpreter : Interpreter := fun source =>
  match Filter.read? source with
  | none => .error .notFilter
  | some filter =>
    match filter.undefinedNames with
    | [] => .ok fun input => (filter.run (.ofJson input)).map (Option.map Filter.Value.render)
    | names => .error (.undefined names)

/-- A filter with its text, as an interpreter gives it. -/
structure FilterProgram where
  source : String
  outputs : Json → List (Option String)

namespace FilterProgram

def compile (source : String) (interpreter : Interpreter := Filter.interpreter) : Except FilterError FilterProgram :=
  (interpreter source).map (FilterProgram.mk source)

/-- An output becomes a document by its text. -/
def document (p : FilterProgram) : Option String → Except FilterError Json
  | none => .error (.failed p.source)
  | some text => (Json.read text).mapError (.notJson p.source)

/-- The documents that a document is turned into; one failure drops them all. -/
def run (p : FilterProgram) : DocumentFilter := fun input => (p.outputs input).mapM p.document

end FilterProgram

/-- The language that an interpreter knows. -/
def Interpreter.language (interpreter : Interpreter) : FilterLanguage := fun source =>
  (FilterProgram.compile source interpreter).map FilterProgram.run

end Conform
