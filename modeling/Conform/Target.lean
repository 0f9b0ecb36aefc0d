import Conform.Schema.Elaborate

namespace Conform

/-- What to decode an input as: a registered name, or a factory applied to a target. -/
inductive Target where
  | named (name : String)
  | generic (tag : String) (argument : Target)
  deriving DecidableEq, Repr

/-- The tag of the factory that every registry has. -/
def arrayTag : String := "Array"

namespace Target

def arrayOf (element : Target) : Target := .generic arrayTag element

def text : Target → String
  | named name => name
  | generic tag argument => tag ++ "<" ++ text argument ++ ">"

def elaborate {ω : Type} (scope : Scope ω) : Target → Except SetupError (Shape ω)
  | named name => scope.resolve name
  | generic tag argument => do
    let factory ← scope.factory tag
    (elaborate scope argument).map factory

end Target

end Conform
