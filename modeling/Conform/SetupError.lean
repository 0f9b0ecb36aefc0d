namespace Conform

/-- What is wrong with a graph of schemas. -/
inductive SetupError where
  | duplicateName (name : String)
  | cyclicDefinition (name : String)
  | forwardReference (name : String)
  | unknownType (name : String)
  | emptySchema (name : String)
  | illegalType (found : String)
  | unknownFactory (tag : String)
  | inProperty (context property : String) (cause : SetupError)
  deriving DecidableEq, Repr

namespace SetupError

def message : SetupError → String
  | duplicateName name => "type '" ++ name ++ "' already registered"
  | cyclicDefinition name =>
    "recursive definition not supported ('" ++ name ++ "' depends on itself)"
  | forwardReference name =>
    "depends on " ++ name ++ " but it's not registered yet. (try to move '" ++ name ++
      "' before this type)"
  | unknownType name => "decoder for '" ++ name ++ "' not registered"
  | emptySchema name => "type '" ++ name ++ "' is an empty interface which is not supported"
  | illegalType found => "illegal decoder type " ++ found
  | unknownFactory tag => "no factory registered for generic '" ++ tag ++ "'"
  | inProperty context property cause => context ++ "." ++ property ++ ": " ++ message cause

/-- The innermost cause. -/
def root : SetupError → SetupError
  | inProperty _ _ cause => root cause
  | e => e

/-- The error and its causes, the outermost first. -/
def chain : SetupError → List SetupError
  | inProperty context property cause => inProperty context property cause :: chain cause
  | e => [e]

end SetupError

end Conform
