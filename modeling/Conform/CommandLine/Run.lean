import Conform.CommandLine.Documents

namespace Conform.CommandLine

/-- What a command prints on its two outputs and writes into a file, and why it fails. -/
structure Outcome where
  out : String
  log : String
  written : Option (String × String)
  failure : Option CommandError

namespace Outcome

def failed (e : CommandError) : Outcome := ⟨"", "", none, some e⟩

def ofExcept : Except CommandError Outcome → Outcome
  | .ok outcome => outcome
  | .error e => failed e

end Outcome

/-- Lines with their line breaks. -/
def joinLines (lines : List String) : String := String.join (lines.map (· ++ "\n"))

/-- Lists the registered types. -/
def runCheck (storage : Storage) (options : SchemaOptions) : Outcome :=
  .ofExcept do
    let registry ← loadRegistry storage options
    let line (name : String) : String :=
      "✓ " ++ name ++ (if registry.synthesizesAttrs name then " (attrs)" else "")
    let names := registry.names
    return ⟨joinLines (names.map line), toString names.length ++ " types registered\n", none, none⟩

/-- What became of a document: its encoding, or the lines that say why it was rejected. -/
inductive Verdict where
  | accepted (encoded : Json)
  | rejected (lines : List String)

def judge (decoder : Decoder Empty) (target : Target) (document : Document) :
    Except CommandError Verdict :=
  match decoder.decode target document.value with
  | .error e => .error (.undecodable document.label target e)
  | .ok (.error lines) => .ok (.rejected lines)
  | .ok (.ok decoded) =>
    ((decoder.encode target decoded).mapError (.undecodable document.label target)).map .accepted

def judgeAll (decoder : Decoder Empty) (target : Target) :
    List Document → Except CommandError (List (Document × Verdict))
  | [] => .ok []
  | document :: rest => do
    let verdict ← judge decoder target document
    return (document, verdict) :: (← judgeAll decoder target rest)

def acceptedValues (verdicts : List (Document × Verdict)) : List Json :=
  verdicts.filterMap fun
    | (_, .accepted encoded) => some encoded
    | (_, .rejected _) => none

def rejectedCount (verdicts : List (Document × Verdict)) : Nat :=
  verdicts.countP fun
    | (_, .accepted _) => false
    | (_, .rejected _) => true

def logLines : Document × Verdict → List String
  | (document, .accepted _) => ["✓ " ++ document.label]
  | (document, .rejected lines) => ("✗ " ++ document.label) :: lines.map ("    " ++ ·)

/-- Writes the accepted documents where they are to go. -/
def deliver (storage : Storage) (out : Option String) (text log : String) : Outcome :=
  match out with
  | none => ⟨text ++ "\n", log, none, none⟩
  | some path =>
    match storage.write path with
    | .error (.folder fault) => ⟨"", log, none, some (.noFolder fault)⟩
    | .error (.file fault) => ⟨"", log, none, some (.unwritable path fault)⟩
    | .ok place => ⟨"", log, place.map fun place => (place, text), none⟩

/-- Reports what became of the documents; it fails where one was rejected. -/
def summarize (storage : Storage) (out : Option String) (target : Target)
    (verdicts : List (Document × Verdict)) : Outcome :=
  let log := joinLines (verdicts.flatMap logLines)
  let delivered := deliver storage out (Json.pretty 0 (.arr (acceptedValues verdicts))) log
  if delivered.failure.isSome ∨ rejectedCount verdicts = 0 then delivered
  else
    { delivered with
      failure := some (.rejected (rejectedCount verdicts) verdicts.length target) }

/-- Decodes documents as one type. -/
def runDecode (language : FilterLanguage) (storage : Storage) (options : DecodeOptions) : Outcome :=
  .ofExcept do
    let registry ← loadRegistry storage options.schemas
    let named := Target.named options.typeName
    let target := if options.array then Target.arrayOf named else named
    let filter ← (options.input.filter.mapM language).mapError .badFilter
    let inputs ← sources storage options.input.patterns
    let documents ← loadDocuments options.input filter inputs
    let verdicts ← judgeAll ⟨registry⟩ target documents
    return summarize storage options.out target verdicts

def Command.run (storage : Storage) : Command → Outcome
  | check options => runCheck storage options
  | decode options => runDecode Filter.interpreter.language storage options

/-- The patterns that a command reads files by. -/
def Command.patterns : Command → List String
  | check options => options.patterns
  | decode options => options.schemas.patterns ++ options.input.patterns

end Conform.CommandLine
