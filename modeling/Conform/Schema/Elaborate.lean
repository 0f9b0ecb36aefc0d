import Conform.Schema

namespace Conform

variable {ω : Type}

/-- Makes the shape of a generic type from that of its argument. -/
abbrev Factory (ω : Type) := Shape ω → Shape ω

/-- What the names and the tags in a type stand for. -/
structure Scope (ω : Type) where
  resolve : String → Except SetupError (Shape ω)
  factory : String → Except SetupError (Factory ω)

/-- The shape of an object from those of its required and of its optional properties. -/
def assemble (name : Option String) (props : List (Property TypeExpr))
    (required optional : Except SetupError (List (String × Shape ω))) :
    Except SetupError (Shape ω) := do
  let declared := props.filter fun p => !p.isAttrs
  let shape ← match declared.any (!·.optional), declared.any (·.optional) with
    | true, true => do
      let strict := Shape.strict name (← required)
      pure (Shape.both name strict (Shape.lenient name (← optional)))
    | true, false => required.map (Shape.strict name)
    | false, true => optional.map (Shape.lenient name)
    | false, false => .error (.emptySchema (name.getD literalContext))
  return if declaresAttrs props then .withAttrs shape else shape

mutual
/-- The shape that a type stands for. -/
def TypeExpr.elaborate (scope : Scope ω) : TypeExpr → Except SetupError (Shape ω)
  | .scalar kind => .ok (.scalar kind)
  | .reference name => scope.resolve name
  | .array element => (elaborate scope element).map .array
  | .union members =>
    if members.isEmpty then .error (.illegalType "empty union")
    else (elaborateMembers scope members).map .oneOf
  | .literal props =>
    assemble none props (elaborateProps scope literalContext false props)
      (elaborateProps scope literalContext true props)
  | .generic tag argument => do
    let factory ← scope.factory tag
    (elaborate scope argument).map factory
  | .parameterized tag argument => do
    let factory ← scope.factory tag
    (elaborate scope argument).map factory

def TypeExpr.elaborateMembers (scope : Scope ω) :
    List TypeExpr → Except SetupError (List (Shape ω))
  | [] => .ok []
  | member :: rest => do
    let shape ← elaborate scope member
    return shape :: (← elaborateMembers scope rest)

/-- The shapes of the required or of the optional properties. -/
def TypeExpr.elaborateProps (scope : Scope ω) (context : String) (optional : Bool) :
    List (Property TypeExpr) → Except SetupError (List (String × Shape ω))
  | [] => .ok []
  | ⟨name, type, isOptional⟩ :: rest =>
    if name = attrsKey ∨ isOptional ≠ optional then elaborateProps scope context optional rest
    else
      match elaborate scope type with
      | .error e => .error (.inProperty context name e)
      | .ok shape => do return (name, shape) :: (← elaborateProps scope context optional rest)
end

/-- The shape of the objects that a schema describes. -/
def Schema.elaborate (scope : Scope ω) (s : Schema) : Except SetupError (Shape ω) :=
  assemble (some s.name) s.props (TypeExpr.elaborateProps scope s.name false s.props)
    (TypeExpr.elaborateProps scope s.name true s.props)

end Conform
