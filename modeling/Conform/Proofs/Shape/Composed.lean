import Conform.Proofs.Leaf

namespace Conform.Shape

variable {ω : Type}

/-- A shape put together from scalars and stock types, with any names, checks and constructors. Only a
validator written by hand is not of this kind. -/
inductive Composed : Shape ω → Prop
  | scalar (kind : Scalar) : Composed (scalar kind)
  | stock (kind : Stock) : Composed kind.shape
  | array {element : Shape ω} : Composed element → Composed (array element)
  | union {members : List (Shape ω)} (each : ∀ member ∈ members, Composed member) : Composed (union members)
  | object {name : String} {props : List (String × Shape ω)} {lenient : Bool}
      (each : ∀ prop ∈ props, Composed prop.2) : Composed (object name props lenient)
  | intersection {name : String} {left right : Shape ω} :
      Composed left → Composed right → Composed (intersection name left right)
  | refine {name : String} {base : Shape ω} {accepts : Decoded ω → Bool} :
      Composed base → Composed (refine name base accepts)
  | withAttrs {inner : Shape ω} : Composed inner → Composed (withAttrs inner)
  | ofClass {className : String} {inner : Shape ω} {showsAttrs : Bool}
      {construct : Json → Except String (Product ω)} :
      Composed inner → Composed (ofClass className inner showsAttrs construct)

/-- A rejection by a composed shape says something: by induction on the shape, each combinator
reports when its parts do. -/
theorem Composed.reporting {s : Shape ω} (composed : s.Composed) : s.Reporting := by
  induction composed with
  | scalar kind => exact (leaf_scalar kind).reporting
  | stock kind => exact kind.leaf_shape.reporting
  | array _ _ => exact array_reporting _
  | union _ ih => exact union_reporting ih
  | object _ _ => exact object_reporting _ _ _
  | intersection _ _ first second => exact intersection_reporting first second
  | refine _ ih => exact refine_reporting ih
  | withAttrs _ ih => exact withAttrs_reporting ih
  | ofClass _ ih => exact ofClass_reporting ih

end Conform.Shape
