import Conform.Proofs.Kinds
import Conform.Proofs.Shape.Dropped

namespace Conform

variable {ω : Type}

theorem Stock.toJson_value (kind : Stock) (input : Json) : (kind.value input : Decoded ω).toJson = input := by
  cases kind with
  | date =>
    cases input with
    | str text =>
      rw [value]
      cases Instant.read? text <;> rfl
    | _ => exact Decoded.toJson_ofJson _
  | latitude | longitude | nonEmptyString => exact Decoded.toJson_ofJson _

namespace Shape

/-- A shape of the kinds that schemas stand for without classes. Some declarations of an object type may have
one name, and none is of `attrs`. -/
inductive Schematic : Shape ω → Prop
  | scalar (kind : Scalar) : Schematic (scalar kind)
  | stock (kind : Stock) : Schematic kind.shape
  | array {element : Shape ω} : Schematic element → Schematic (array element)
  | union {members : List (Shape ω)} (each : ∀ member ∈ members, Schematic member) : Schematic (union members)
  | record {label : Option String} {attrs : Bool} {decls : List (Property (Shape ω))}
      (unreserved : ∀ p ∈ decls, p.name ≠ attrsKey) (each : ∀ p ∈ decls, Schematic p.type) :
      Schematic (ofDeclared label attrs decls)

namespace Schematic

theorem kind : Shape.Kind (@Schematic ω) where
  scalar := .scalar
  array _ inner := .array inner
  union _ each := .union each
  record _ _ _ unreserved each := .record unreserved each

variable {s : Shape ω}

theorem reporting (schematic : s.Schematic) : s.Reporting := by
  induction schematic with
  | scalar kind => exact (leaf_scalar kind).reporting
  | stock kind => exact kind.leaf_shape.reporting
  | array _ _ => exact array_reporting _
  | union _ ih => exact union_reporting ih
  | @record label attrs decls _ _ _ =>
    cases attrs with
    | false => exact ofParts_reporting label (side false decls) (side true decls)
    | true => exact withAttrs_reporting (ofParts_reporting label (side false decls) (side true decls))

/-- A schematic shape decodes to a value that names every key once. -/
theorem keepsDistinct (schematic : s.Schematic) : s.KeepsDistinct := by
  induction schematic with
  | scalar kind => exact (scalar_keeps kind).keepsDistinct
  | stock kind =>
    intro input distinct here d accepted
    obtain ⟨_, rfl⟩ := kind.leaf_shape.of_ok accepted
    rwa [kind.toJson_value]
  | array inner ih => exact array_keepsDistinct inner.reporting ih
  | union _ ih => exact union_keepsDistinct ih
  | @record label attrs decls _ _ ih =>
    intro input distinct here d accepted
    obtain ⟨fields, rfl⟩ := obj_of_validate_ofProps accepted
    obtain ⟨nodup, inside⟩ := Json.distinct_obj_iff.mp distinct
    obtain ⟨_, rfl⟩ := (validate_ofDeclared_iff nodup).mp accepted
    have parts : (Decoded.obj (Fields.mapWithKey (keptOf decls here) fields)).toJson.Distinct := by
      refine Decoded.distinct_mapWithKey nodup fun entry member => ?_
      rcases keptOf_origin decls here entry.1 entry.2 with same | ⟨p, listed, _, validated⟩
      · rw [same, Decoded.toJson_ofJson]
        exact inside entry member
      · exact ih p listed (inside entry member) validated
    cases attrs with
    | false => exact parts
    | true => exact setAttrs_distinct parts

end Schematic

end Shape

theorem Target.schematic_of_elaborate {scope : Scope ω} (schematic : scope.Of Shape.Schematic) (target : Target) :
    ∀ shape, target.elaborate scope = .ok shape → shape.Schematic :=
  target.of_elaborate schematic

/-- A schema was registered, or a shape or a factory that does not leave the kinds of schemas; no class was. -/
def Event.Schematic : Event ω → Prop
  | registered (.schema _) => True
  | registered (.ofClass _) => False
  | registered (.shape _ given) => given.Schematic
  | factory _ make => ∀ s : Shape ω, s.Schematic → (make s).Schematic

theorem Event.Schematic.of {event : Event ω} (schematic : event.Schematic) : event.Of Shape.Schematic :=
  match event, schematic with
  | registered (.schema _), _ => trivial
  | registered (.shape _ _), given => given
  | factory _ _, keeps => keeps

/-- Where no class is registered, every name comes to stand for a shape of the kinds of schemas. -/
theorem Registry.Reached.schematic {r : Registry ω} {events : List (Event ω)} (reached : r.Reached events)
    (each : ∀ event ∈ events, event.Schematic) : r.scope.Of Shape.Schematic :=
  reached.of Shape.Schematic.kind fun event member => (each event member).of

end Conform
