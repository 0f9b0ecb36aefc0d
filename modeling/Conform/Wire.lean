import Conform.Json.Printer
import Conform.Schema

namespace Conform

/-- A type as schema documents write it. Any JSON may stand for a type; what has none of the known
forms is kept as it is. -/
inductive WireType where
  | reference (name : String)
  | array (element : WireType)
  | parameterized (tag : String) (argument : WireType)
  | generic (tag : String) (argument : WireType)
  | union (members : List WireType)
  | literal (props : List (Property WireType))
  | keyword (word : String)
  | null
  | other (value : Json)

def Scalar.all : List Scalar := [string, number, boolean, null]

def Scalar.ofName? (name : String) : Option Scalar := all.find? fun kind => kind.name = name

mutual
/-- The type that a document's type means. -/
def WireType.lower : WireType → Except SetupError TypeExpr
  | .reference name => .ok (.reference name)
  | .array element => (lower element).map .array
  | .parameterized tag argument => (lower argument).map (.parameterized tag)
  | .generic tag argument => (lower argument).map (.generic tag)
  | .union members => (lowerMembers members).map .union
  | .literal props => (lowerProps literalContext props).map .literal
  | .keyword word =>
    match Scalar.ofName? word with
    | some kind => .ok (.scalar kind)
    | none => .error (.illegalType (Json.quote word))
  | .null => .ok (.scalar .null)
  | .other value => .error (.illegalType value.render)

def WireType.lowerMembers : List WireType → Except SetupError (List TypeExpr)
  | [] => .ok []
  | member :: rest => do
    let type ← lower member
    return type :: (← lowerMembers rest)

/-- The properties with the types that are meant. The type of `attrs` plays no part, so an empty
literal stands in for one without a meaning. -/
def WireType.lowerProps (context : String) :
    List (Property WireType) → Except SetupError (List (Property TypeExpr))
  | [] => .ok []
  | ⟨name, type, optional⟩ :: rest =>
    match lower type with
    | .ok type => do return ⟨name, type, optional⟩ :: (← lowerProps context rest)
    | .error e =>
      if name = attrsKey then do
        return ⟨name, .literal [], optional⟩ :: (← lowerProps context rest)
      else .error (.inProperty context name e)
end

def Schema.lower (s : Schema WireType) : Except SetupError Schema :=
  (WireType.lowerProps s.name s.props).map fun props => ⟨s.name, props⟩

def Schema.lowerAll : List (Schema WireType) → Except SetupError (List Schema)
  | [] => .ok []
  | s :: rest => do
    let schema ← s.lower
    return schema :: (← lowerAll rest)

end Conform
