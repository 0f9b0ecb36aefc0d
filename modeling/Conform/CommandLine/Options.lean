namespace Conform.CommandLine

/-- Why arguments are not run as a command. -/
inductive UsageFault where
  | missingRequired
  | missingValue
  | unexpectedValue
  | unknownArgument
  | repeatedOption
  | unknownCommand
  | help
  | helpForNothing
  deriving DecidableEq, Repr

/-- The kind that a fault is known by. -/
def UsageFault.kind : UsageFault → String
  | missingRequired => "MissingRequiredArgument"
  | missingValue => "InvalidValue"
  | unexpectedValue => "TooManyValues"
  | unknownArgument => "UnknownArgument"
  | repeatedOption => "ArgumentConflict"
  | unknownCommand => "InvalidSubcommand"
  | help => "DisplayHelp"
  | helpForNothing => "DisplayHelpOnMissingArgumentOrSubcommand"

/-- Help that was asked for is no failure. -/
def UsageFault.exitCode : UsageFault → Nat
  | help => 0
  | _ => 2

structure SchemaOptions where
  patterns : List String
  builtins : Bool
  deriving DecidableEq, Repr

structure InputOptions where
  lines : Bool
  pointer : Option String
  filter : Option String
  patterns : List String
  deriving DecidableEq, Repr

structure DecodeOptions where
  schemas : SchemaOptions
  input : InputOptions
  typeName : String
  array : Bool
  out : Option String
  deriving DecidableEq, Repr

inductive Command where
  | check (schemas : SchemaOptions)
  | decode (options : DecodeOptions)
  deriving DecidableEq, Repr

/-- How many values an option takes: none, one that may be given once, or several at each use. A
path is a value that is not empty. -/
inductive Arity where
  | flag
  | text
  | path
  | several
  deriving DecidableEq, Repr

structure OptionForm where
  long : String
  short : Option Char
  arity : Arity
  deriving DecidableEq, Repr

def schemaForms : List OptionForm :=
  [⟨"schemas", some 's', .several⟩, ⟨"no-builtins", none, .flag⟩]

def decodeForms : List OptionForm :=
  schemaForms ++
    [⟨"ndjson", none, .flag⟩, ⟨"json-pointer", none, .text⟩, ⟨"jq-expr", none, .text⟩,
      ⟨"input", some 'i', .several⟩, ⟨"type", some 't', .text⟩, ⟨"array", none, .flag⟩,
      ⟨"out", some 'o', .path⟩]

/-- The uses of options read so far, and the last option while it may still take values. -/
structure Progress where
  given : List (String × List String)
  pending : Option (OptionForm × List String)

namespace Progress

/-- Adds a use of an option. -/
def use (p : Progress) (form : OptionForm) (values : List String) : Except UsageFault Progress :=
  if form.arity ≠ .flag ∧ values.isEmpty then .error .missingValue
  else if form.arity ≠ .several ∧ (p.given.any fun (name, _) => name = form.long) then
    .error .repeatedOption
  else if form.arity = .path ∧ values.contains "" then .error .missingValue
  else .ok { p with given := p.given ++ [(form.long, values)] }

/-- Ends the option that may still take values. -/
def settle (p : Progress) : Except UsageFault Progress :=
  match p.pending with
  | none => .ok p
  | some (form, values) => use { p with pending := none } form values

/-- Starts an option, with a value where one is attached to it. -/
def start (p : Progress) (form : OptionForm) (attached : Option String) :
    Except UsageFault Progress := do
  match form.arity, attached with
  | .flag, some _ => throw .unexpectedValue
  | .flag, none => use (← p.settle) form []
  | _, some value => use (← p.settle) form [value]
  | _, none => return { (← p.settle) with pending := some (form, []) }

/-- Asks for help, which is given unless the option before lacks its value. -/
def askHelp {α : Type} (p : Progress) (attached : Option String) : Except UsageFault α := do
  if attached.isSome then throw .unexpectedValue
  let _ ← p.settle
  throw .help

/-- Takes a value that stands alone. -/
def value (p : Progress) (text : String) : Except UsageFault Progress :=
  match p.pending with
  | some (form, values) =>
    if form.arity = .several ∨ values.isEmpty then
      .ok { p with pending := some (form, values ++ [text]) }
    else .error .unknownArgument
  | none => .error .unknownArgument

end Progress

/-- The value behind the sign of equality. -/
def attachedTo (text : List Char) : Option String :=
  match text.dropWhile (· ≠ '=') with
  | '=' :: value => some (String.ofList value)
  | _ => none

/-- Reads one argument. -/
def readArgument (forms : List OptionForm) (p : Progress) (argument : String) :
    Except UsageFault Progress :=
  match argument.toList with
  | '-' :: '-' :: long =>
    let name := String.ofList (long.takeWhile (· ≠ '='))
    if name = "help" then p.askHelp (attachedTo long)
    else
      match forms.find? fun form => form.long = name with
      | some form => p.start form (attachedTo long)
      | none => .error .unknownArgument
  | '-' :: short :: rest =>
    if short = 'h' then p.askHelp none
    else
      match forms.find? fun form => form.short = some short with
      | some form =>
        match rest with
        | [] => p.start form none
        | '=' :: value => p.start form (some (String.ofList value))
        | value => p.start form (some (String.ofList value))
      | none => .error .unknownArgument
  | _ => p.value argument

/-- Reads arguments up to the end; nothing may follow the mark that ends the options. -/
def readArguments (forms : List OptionForm) : Progress → List String → Except UsageFault Progress
  | p, [] => p.settle
  | p, "--" :: rest => if rest.isEmpty then p.settle else .error .unknownArgument
  | p, argument :: rest => do readArguments forms (← readArgument forms p argument) rest

/-- The options of a command. -/
structure Given where
  uses : List (String × List String)

namespace Given

def values (g : Given) (name : String) : List String :=
  (g.uses.filter fun (other, _) => other = name).flatMap Prod.snd

def flag (g : Given) (name : String) : Bool := g.uses.any fun (other, _) => other = name

def required (g : Given) (names : List String) : Except UsageFault Unit :=
  if names.all g.flag then .ok () else .error .missingRequired

def schemas (g : Given) : SchemaOptions := ⟨g.values "schemas", !g.flag "no-builtins"⟩

def input (g : Given) : InputOptions :=
  ⟨g.flag "ndjson", (g.values "json-pointer").head?, (g.values "jq-expr").head?, g.values "input"⟩

end Given

def readCheck (arguments : List String) : Except UsageFault Command := do
  let given : Given := ⟨(← readArguments schemaForms ⟨[], none⟩ arguments).given⟩
  given.required ["schemas"]
  return .check given.schemas

def readDecode (arguments : List String) : Except UsageFault Command := do
  let given : Given := ⟨(← readArguments decodeForms ⟨[], none⟩ arguments).given⟩
  given.required ["schemas", "input", "type"]
  return .decode
    { schemas := given.schemas
      input := given.input
      typeName := (given.values "type").head?.getD ""
      array := given.flag "array"
      out := (given.values "out").head? }

/-- Reads the arguments behind the command `help`: at most the name of a command. -/
def readHelp : List String → UsageFault
  | [] => .help
  | [name] => if name ∈ ["check", "decode", "help"] then .help else .unknownCommand
  | _ => .unknownCommand

/-- Reads the arguments of the program. -/
def Command.read : List String → Except UsageFault Command
  | [] => .error .helpForNothing
  | "check" :: rest => readCheck rest
  | "decode" :: rest => readDecode rest
  | "help" :: rest => .error (readHelp rest)
  | "--" :: [] => .error .helpForNothing
  | "--" :: name :: _ =>
    .error (if name ∈ ["check", "decode", "help"] then .unknownArgument else .unknownCommand)
  | argument :: _ =>
    match argument.toList with
    | '-' :: _ :: _ => (readArgument [] ⟨[], none⟩ argument).bind fun _ => .error .unknownArgument
    | _ => .error .unknownCommand

end Conform.CommandLine
