import Conform.Shape

namespace Conform

/-- A declared key of an object and its type, written in some form `τ` of types. -/
structure Property (τ : Type) where
  name : String
  type : τ
  optional : Bool
  deriving DecidableEq, Repr

/-- The reserved key is declared like a property, but its type plays no part. -/
def Property.isAttrs {τ : Type} (p : Property τ) : Bool := p.name = attrsKey

/-- The type of a property: a generic type is a tag, which names a factory, and an argument. -/
inductive TypeExpr where
  | scalar (kind : Scalar)
  | reference (name : String)
  | array (element : TypeExpr)
  | union (members : List TypeExpr)
  | literal (props : List (Property TypeExpr))
  | generic (tag : String) (argument : TypeExpr)
  | parameterized (tag : String) (argument : TypeExpr)
  deriving Repr

def TypeExpr.nullable (inner : TypeExpr) : TypeExpr := .union [inner, .scalar .null]

/-- A named list of properties. -/
structure Schema (τ : Type := TypeExpr) where
  name : String
  props : List (Property τ)
  deriving DecidableEq, Repr

/-- The name that errors give to an object type without one. -/
def literalContext : String := "<literal>"

def declaresAttrs {τ : Type} (props : List (Property τ)) : Bool := props.any Property.isAttrs

mutual
/-- Adds the names that a type refers to, each once, in the order of their first occurrence. -/
def TypeExpr.collectReferences : TypeExpr → List String → List String
  | .scalar _, known => known
  | .reference name, known => if name ∈ known then known else known ++ [name]
  | .array element, known => collectReferences element known
  | .union members, known => collectFromMembers members known
  | .literal props, known => collectFromProps props known
  | .generic _ argument, known => collectReferences argument known
  | .parameterized _ argument, known => collectReferences argument known

def TypeExpr.collectFromMembers : List TypeExpr → List String → List String
  | [], known => known
  | member :: rest, known => collectFromMembers rest (collectReferences member known)

def TypeExpr.collectFromProps : List (Property TypeExpr) → List String → List String
  | [], known => known
  | p :: rest, known => collectFromProps rest (collectReferences p.type known)
end

/-- The names that a schema refers to; the type of its own `attrs` does not count. -/
def Schema.references (s : Schema) : List String :=
  TypeExpr.collectFromProps (s.props.filter fun p => !p.isAttrs) []

end Conform
