import Conform.Json.Printer
import Conform.Position
import Conform.Text

namespace Conform

/-- Why a JSON value is not of the form that was asked for. -/
inductive ReadFault where
  | unexpected (found : Json) (expected : String)
  | tooShort (length : Nat) (expected : String)
  | tooLong (length : Nat)
  | missing (key : String)
  | repeated (key : String)
  deriving DecidableEq, Repr

/-- A fault and the keys that lead to the place where it was found. -/
structure ReadError where
  keys : List Key
  fault : ReadFault
  deriving DecidableEq, Repr

/-- The kind of a value, with the value itself where it is short. -/
def Json.kind : Json → String
  | .null => "null"
  | .bool b => "boolean `" ++ (if b then "true" else "false") ++ "`"
  | .num (.int n) => "integer `" ++ Number.renderInt n ++ "`"
  | .num (.float x) => "floating point `" ++ x.render ++ "`"
  | .str s => "string " ++ quoteSource s
  | .arr _ => "sequence"
  | .obj _ => "map"

def ReadFault.message : ReadFault → String
  | unexpected found expected => "invalid type: " ++ found.kind ++ ", expected " ++ expected
  | tooShort length expected => "invalid length " ++ toString length ++ ", expected " ++ expected
  | tooLong length =>
    "invalid length " ++ toString length ++ ", expected fewer elements in array"
  | missing key => "missing field `" ++ key ++ "`"
  | repeated key => "duplicate field `" ++ key ++ "`"

namespace ReadError

def message (e : ReadError) : String := e.fault.message

/-- The place as a path such as `[0].props[1]`; a lone point stands for the whole value. -/
def path (e : ReadError) : String :=
  if e.keys.isEmpty then "." else e.keys.foldl extend ""
where
  extend (written : String) : Key → String
    | .index place => written ++ "[" ++ toString place ++ "]"
    | .field name => if written = "" then name else written ++ "." ++ name

def below (key : Key) (e : ReadError) : ReadError := { e with keys := key :: e.keys }

end ReadError

abbrev Reading (α : Type) := Except ReadError α

namespace Reading

variable {α σ : Type}

def fail (fault : ReadFault) : Reading α := .error ⟨[], fault⟩

def inside (key : Key) (r : Reading α) : Reading α := r.mapError (ReadError.below key)

def string : Json → Reading String
  | .str s => .ok s
  | value => fail (.unexpected value "a string")

def boolean : Json → Reading Bool
  | .bool b => .ok b
  | value => fail (.unexpected value "a boolean")

def double (value : Json) : Reading Double :=
  match value with
  | .num n =>
    match n.toDouble? with
    | some x => .ok x
    | none => fail (.unexpected value "f64")
  | _ => fail (.unexpected value "f64")

def fields : Json → Reading (List (String × Json))
  | .obj fields => .ok fields
  | value => fail (.unexpected value "a map")

/-- Reads the items of a list from a place on. -/
def each (read : σ → Reading α) : (place : Nat) → List σ → Reading (List α)
  | _, [] => .ok []
  | place, item :: rest => do
    let value ← inside (.index place) (read item)
    return value :: (← each read (place + 1) rest)

def list (read : Json → Reading α) : Json → Reading (List α)
  | .arr items => each read 0 items
  | value => fail (.unexpected value "a sequence")

end Reading

/-- A record with fields `ι`: each has a type, a key (and perhaps others that stand for it), and may
have to be given. -/
structure RecordForm (ι : Type) where
  name : String
  fields : List ι
  key : ι → String
  otherKeys : ι → List String
  required : ι → Bool
  Value : ι → Type

namespace RecordForm

variable {ι σ : Type} [DecidableEq ι] (form : RecordForm ι)

/-- What was read of a record so far. -/
abbrev Given := (i : ι) → Option (form.Value i)

def nothingGiven : form.Given := fun _ => none

def give (given : form.Given) (i : ι) (value : form.Value i) : form.Given :=
  fun j => if h : i = j then some (h ▸ value) else given j

def fieldOf? (key : String) : Option ι :=
  form.fields.find? fun i => key = form.key i || key ∈ form.otherKeys i

/-- Reads the known keys in the order in which they stand; a field is given once. -/
def readKeys (read : (i : ι) → σ → Reading (form.Value i)) :
    List (String × σ) → form.Given → Reading form.Given
  | [], given => .ok given
  | (key, source) :: rest, given =>
    match form.fieldOf? key with
    | none => readKeys read rest given
    | some i =>
      if (given i).isSome then Reading.fail (.repeated (form.key i))
      else
        match Reading.inside (.field key) (read i source) with
        | .ok value => readKeys read rest (form.give given i value)
        | .error e => .error e

/-- Reads a record from an object. -/
def ofFields (read : (i : ι) → σ → Reading (form.Value i)) (sources : List (String × σ)) :
    Reading form.Given := do
  let given ← form.readKeys read sources form.nothingGiven
  match form.fields.find? fun i => form.required i && (given i).isNone with
  | some i => Reading.fail (.missing (form.key i))
  | none => return given

/-- What is expected of a list that stands for the record. -/
def expectation : String :=
  "struct " ++ form.name ++ " with " ++ toString form.fields.length ++ " elements"

/-- Reads the fields from a place on in the order of the record. -/
def readPlaces (read : (i : ι) → σ → Reading (form.Value i)) (length : Nat) :
    (place : Nat) → List ι → List σ → form.Given → Reading form.Given
  | _, [], [], given => .ok given
  | _, [], _ :: _, _ => Reading.fail (.tooLong length)
  | place, i :: fields, [], given =>
    if form.required i then Reading.fail (.tooShort place form.expectation)
    else readPlaces read length (place + 1) fields [] given
  | place, i :: fields, source :: rest, given =>
    match Reading.inside (.index place) (read i source) with
    | .ok value => readPlaces read length (place + 1) fields rest (form.give given i value)
    | .error e => .error e

/-- Reads a record from a list of its fields. -/
def ofItems (read : (i : ι) → σ → Reading (form.Value i)) (sources : List σ) :
    Reading form.Given :=
  form.readPlaces read sources.length 0 form.fields sources form.nothingGiven

/-- Reads a record from an object or a list. -/
def ofJson (read : (i : ι) → Json → Reading (form.Value i)) : Json → Reading form.Given
  | .obj fields => form.ofFields read fields
  | .arr items => form.ofItems read items
  | value => Reading.fail (.unexpected value ("struct " ++ form.name))

end RecordForm

end Conform
