import Conform.CommandLine.Options
import Conform.Filter.Program
import Conform.Glob
import Conform.Schema.Document
import Conform.Builtin
import Conform.Decoder
import Conform.Text

namespace Conform.CommandLine

/-- Why a command fails. -/
inductive CommandError where
  | badPattern (e : GlobError)
  | noMatch (pattern : String)
  | unreadable (path : String) (fault : FileFault)
  | badSchema (path : String) (e : DocumentError)
  | setup (e : SetupError)
  | badFilter (e : FilterError)
  | badDocument (path : String) (failure : SyntaxFailure)
  | badLine (label : String) (failure : SyntaxFailure)
  | nothingAt (pointer label : String)
  | filterFailed (label : String) (e : FilterError)
  | undecodable (label : String) (target : Target) (e : DecodeError)
  | noFolder (fault : FileFault)
  | unwritable (path : String) (fault : FileFault)
  | rejected (count total : Nat) (target : Target)
  deriving Repr

def documentChain : DocumentError → List String
  | .notJson failure => [(DocumentError.notJson failure).message, failure.message]
  | .notSchema e => [(DocumentError.notSchema e).message]
  | .setup e => e.chain.map SetupError.message

def filterChain : FilterError → List String
  | .notJson source cause => [(FilterError.notJson source cause).message, cause.message]
  | e => [e.message]

def decodeChain : DecodeError → List String
  | .unresolved cause =>
    (DecodeError.unresolved cause).message :: cause.chain.map SetupError.message
  | .construction className message =>
    [(DecodeError.construction className message).message, message]

/-- The error and its causes in words, the outermost first. -/
def CommandError.chain : CommandError → List String
  | badPattern e => [e.message]
  | noMatch pattern => ["glob pattern matched no files: " ++ pattern]
  | unreadable path fault => ["failed to read " ++ path, fault.message]
  | badSchema path e => ("invalid schema file " ++ path) :: documentChain e
  | setup e => "schema setup failed" :: e.chain.map SetupError.message
  | badFilter e => filterChain e
  | badDocument path failure =>
    ["failed to parse JSON source file (" ++ path ++ ")", failure.message]
  | badLine label failure => ["failed to parse NDJSON line (" ++ label ++ ")", failure.message]
  | nothingAt pointer label =>
    ["JSON pointer " ++ pointer ++ " matches nothing in " ++ label]
  | filterFailed label e => ("failed to apply jq expression to " ++ label) :: filterChain e
  | undecodable label target e =>
    (label ++ ": cannot decode as " ++ target.text) :: decodeChain e
  | noFolder fault => [fault.message]
  | unwritable path fault => ["failed to write " ++ path, fault.message]
  | rejected count total target =>
    [toString count ++ " of " ++ toString total ++ " documents rejected as " ++ target.text]

/-- The paths that patterns and plain paths stand for. -/
def expandPaths (root : Node) : List String → Except CommandError (List String)
  | [] => .ok []
  | pattern :: rest => do
    let paths ← expandPath pattern
    return paths ++ (← expandPaths root rest)
where
  expandPath (pattern : String) : Except CommandError (List String) := do
    if !Glob.isPattern pattern then return [pattern]
    let paths ← (Glob.expand root pattern).mapError .badPattern
    if paths.isEmpty then throw (.noMatch pattern)
    return paths

/-- A file that was asked for, and its content where it can be read. -/
structure Source where
  path : String
  content : Except FileFault String

def Source.text (source : Source) : Except CommandError String :=
  source.content.mapError (.unreadable source.path)

def sources (storage : Storage) (patterns : List String) : Except CommandError (List Source) :=
  (expandPaths storage.root patterns).map fun paths =>
    paths.map fun path => ⟨path, storage.read path⟩

/-- The schemas of the sources in order. -/
def loadSchemas : List Source → Except CommandError (List Schema)
  | [] => .ok []
  | source :: rest => do
    let text ← source.text
    let schemas ← (Schema.ofDocument text).mapError (.badSchema source.path)
    return schemas ++ (← loadSchemas rest)

/-- The registry that a command works with. -/
def loadRegistry (storage : Storage) (options : SchemaOptions) :
    Except CommandError (Registry Empty) := do
  let start := if options.builtins then Builtin.registry else Registry.empty
  let schemas ← loadSchemas (← sources storage options.patterns)
  match start.registerAll (schemas.map .schema) with
  | (registry, .ok ()) => return registry
  | (_, .error e) => throw (.setup e)

/-- An input with the label that it is reported under. -/
structure Document where
  label : String
  value : Json
  deriving DecidableEq

/-- The lines of a text. A line ends with a line feed, which a carriage return may precede. -/
def textLines : List Char → List (List Char)
  | [] => []
  | '\n' :: rest => [] :: textLines rest
  | '\r' :: '\n' :: rest => [] :: textLines rest
  | c :: rest =>
    match textLines rest, rest with
    | first :: others, _ :: _ => (c :: first) :: others
    | lines, _ => [c] :: lines

/-- The documents in the lines from a number on; blank lines hold none. -/
def parseLines (path : String) : (number : Nat) → List (List Char) →
    Except CommandError (List Document)
  | _, [] => .ok []
  | number, line :: rest =>
    if line.all isWhite then parseLines path (number + 1) rest
    else do
      let label := path ++ ":" ++ toString number
      let value ← (Json.read (String.ofList line)).mapError (.badLine label)
      return ⟨label, value⟩ :: (← parseLines path (number + 1) rest)

/-- The documents in a text: one as a whole or one a line. -/
def parseText (options : InputOptions) (path text : String) : Except CommandError (List Document) :=
  if options.lines then parseLines path 1 (textLines text.toList)
  else do return [⟨path, ← (Json.read text).mapError (.badDocument path)⟩]

/-- The part of a document that a pointer leads to. -/
def select (pointer : Option String) (document : Document) : Except CommandError Document :=
  match pointer with
  | none => .ok document
  | some pointer =>
    match document.value.pointer? pointer with
    | some value => .ok { document with value }
    | none => .error (.nothingAt pointer document.label)

/-- The documents that a filter makes of a document, numbered from zero. -/
def applyFilter (filter : Option DocumentFilter) (document : Document) :
    Except CommandError (List Document) :=
  match filter with
  | none => .ok [document]
  | some run => do
    let values ← (run document.value).mapError (.filterFailed document.label)
    return values.zipIdx.map fun (value, n) => ⟨document.label ++ "#" ++ toString n, value⟩

/-- Goes through documents one after another up to the first error. -/
def eachDocument {α β : Type} (load : α → Except CommandError (List β)) :
    List α → Except CommandError (List β)
  | [] => .ok []
  | a :: rest => do
    let first ← load a
    return first ++ (← eachDocument load rest)

/-- The documents of the sources in order. -/
def loadDocuments (options : InputOptions) (filter : Option DocumentFilter) :
    List Source → Except CommandError (List Document) :=
  eachDocument fun source => do
    let text ← source.text
    let documents ← parseText options source.path text
    let load (document : Document) : Except CommandError (List Document) := do
      applyFilter filter (← select options.pointer document)
    eachDocument load documents

end Conform.CommandLine
