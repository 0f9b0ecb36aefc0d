import Conform.Json.Printer
import Conform.Position
import Conform.SetupError

namespace Conform

/-- An error that no input alone can cause. -/
inductive DecodeError where
  | unresolved (cause : SetupError)
  | construction (className message : String)
  deriving DecidableEq, Repr

def DecodeError.message : DecodeError → String
  | .unresolved cause => "cannot decode: " ++ cause.message
  | .construction className message => "constructor for '" ++ className ++ "' failed: " ++ message

/-- One difference between an input and a shape; nothing was found where a key is absent. -/
structure Mismatch where
  path : String
  expected : String
  actual : Option Json
  deriving DecidableEq, Repr

namespace Mismatch

def line (m : Mismatch) : String :=
  let found := match m.actual with
    | some value => value.render
    | none => "nothing"
  m.path ++ ": expected " ++ m.expected ++ ", got " ++ found

def normal (m : Mismatch) : Mismatch := { m with actual := m.actual.map Json.normal }

/-- Equality up to the order of fields in what was found. -/
def same (a b : Mismatch) : Bool := a.normal = b.normal

end Mismatch

/-- Why an input was not decoded: it does not match, or a constructor failed on it. -/
inductive Failure where
  | invalid (mismatches : List Mismatch)
  | fatal (error : DecodeError)
  deriving DecidableEq, Repr

namespace Failure

def single (here : Position) (expected : String) (actual : Option Json) : Failure :=
  .invalid [⟨here.path, expected, actual⟩]

def addNew (known : List Mismatch) (m : Mismatch) : List Mismatch :=
  if known.any (m.same ·) then known else known ++ [m]

/-- Joins a later failure to an earlier one: the first fatal error stays, and a mismatch that is
already known is not repeated. -/
def absorb : Failure → Failure → Failure
  | .fatal e, _ => .fatal e
  | .invalid _, .fatal e => .fatal e
  | .invalid known, .invalid more => .invalid (more.foldl addNew known)

end Failure

/-- One line for each mismatch. -/
def report (mismatches : List Mismatch) : List String :=
  if mismatches.isEmpty then ["no errors provided"] else mismatches.map Mismatch.line

end Conform
