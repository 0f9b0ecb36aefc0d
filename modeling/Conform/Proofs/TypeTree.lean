import Conform.Builtin
import Conform.Proofs.Shape.Validate

namespace Conform

/-- The types that a registry with the stock definitions knows. -/
inductive Stock where
  | date
  | latitude
  | longitude
  | nonEmptyString
  deriving DecidableEq, Repr

namespace Stock

def name : Stock → String
  | date => "Date"
  | latitude => "Latitude"
  | longitude => "Longitude"
  | nonEmptyString => "NonEmptyString"

def shape {ω : Type} : Stock → Shape ω
  | date => Builtin.date
  | latitude => Builtin.latitude
  | longitude => Builtin.longitude
  | nonEmptyString => Builtin.nonEmptyString

def all : List Stock := [date, latitude, longitude, nonEmptyString]

def named? (name : String) : Option Stock := all.find? fun kind => kind.name = name

theorem named?_name (kind : Stock) : named? kind.name = some kind := by
  cases kind <;> decide

/-- The stock types are exactly the definitions that a registry can be filled with at once. -/
theorem definitions_eq_map {ω : Type} :
    (Builtin.definitions : List (Definition ω)) = all.map fun kind => .shape kind.name kind.shape := rfl

end Stock

/-- A type in which every reference is replaced by what the name stands for. An object type keeps
whether it declares `attrs`, and its other properties; a class has the type of its schema inside. -/
inductive TypeTree (ω : Type) where
  | scalar (kind : Scalar)
  | stock (kind : Stock)
  | array (element : TypeTree ω)
  | union (members : List (TypeTree ω))
  | record (name : Option String) (attrs : Bool) (props : List (Property (TypeTree ω)))
  | ofClass (className : String) (inner : TypeTree ω) (construct : Json → Except String (Product ω))

namespace Shape

variable {ω : Type}

/-- The shape of an object with required and with optional keys. -/
def ofParts (name : Option String) : (required optional : List (String × Shape ω)) → Shape ω
  | [], optional => lenient name optional
  | required, [] => strict name required
  | required, optional => both name (strict name required) (lenient name optional)

theorem ofParts_strict (name : Option String) {required : List (String × Shape ω)} (some : required ≠ []) :
    ofParts name required [] = strict name required := by
  cases required with
  | nil => exact absurd rfl some
  | cons => rfl

/-- A record with both kinds of properties meets two objects, a strict and a lenient one. -/
theorem ofParts_both (name : Option String) {required optional : List (String × Shape ω)}
    (some : required ≠ []) (others : optional ≠ []) :
    ofParts name required optional = both name (strict name required) (lenient name optional) := by
  cases required with
  | nil => exact absurd rfl some
  | cons => cases optional with
    | nil => exact absurd rfl others
    | cons => rfl

/-- The shape of an object that may declare `attrs`. -/
def ofProps (name : Option String) (attrs : Bool) (required optional : List (String × Shape ω)) : Shape ω :=
  if attrs then .withAttrs (ofParts name required optional) else ofParts name required optional

end Shape

namespace TypeTree

variable {ω : Type}

/-- Whether decoding as the type puts an empty `attrs` to the top. -/
def addsAttrs : TypeTree ω → Bool
  | record _ attrs _ => attrs
  | ofClass _ inner _ => addsAttrs inner
  | _ => false

mutual

/-- The shape that decodes and encodes the type. -/
def shape : TypeTree ω → Shape ω
  | scalar kind => .scalar kind
  | stock kind => kind.shape
  | array element => .array (shape element)
  | union members => .oneOf (shapes members)
  | record name attrs props => .ofProps name attrs (propShapes false props) (propShapes true props)
  | ofClass className inner construct => .ofClass className (shape inner) (addsAttrs inner) construct

def shapes : List (TypeTree ω) → List (Shape ω)
  | [] => []
  | member :: rest => shape member :: shapes rest

/-- The shapes of the required or of the optional properties. -/
def propShapes (optional : Bool) : List (Property (TypeTree ω)) → List (String × Shape ω)
  | [] => []
  | ⟨name, type, isOptional⟩ :: rest =>
    if isOptional = optional then (name, shape type) :: propShapes optional rest
    else propShapes optional rest

end

theorem shapes_eq_map (members : List (TypeTree ω)) : shapes members = members.map shape := by
  induction members with
  | nil => rfl
  | cons member rest ih => rw [shapes, ih, List.map_cons]

theorem mem_propShapes {optional : Bool} {props : List (Property (TypeTree ω))} {entry : String × Shape ω} :
    entry ∈ propShapes optional props ↔
      ∃ p ∈ props, p.optional = optional ∧ (p.name, p.type.shape) = entry := by
  induction props with
  | nil => simp [propShapes]
  | cons p rest ih =>
    obtain ⟨name, type, isOptional⟩ := p
    by_cases same : isOptional = optional
    · simp only [propShapes, same, if_true, List.mem_cons, ih, exists_eq_or_imp, true_and, eq_comm]
    · simp only [propShapes, same, if_false, ih, List.mem_cons, exists_eq_or_imp, false_and, false_or]

/-- The properties of one side stand in the order of their declaration. -/
theorem keys_propShapes_sublist (optional : Bool) (props : List (Property (TypeTree ω))) :
    (Fields.keys (propShapes optional props)).Sublist (props.map Property.name) := by
  induction props with
  | nil => exact .slnil
  | cons p rest ih =>
    obtain ⟨name, type, isOptional⟩ := p
    by_cases same : isOptional = optional
    · simp only [propShapes, same, if_true, Fields.keys_cons, List.map_cons]
      exact ih.cons_cons _
    · simp only [propShapes, same, if_false, List.map_cons]
      exact ih.cons _

/-- A type whose properties are distinct and none of them `attrs`, and whose classes and stock types
are those that a book of names lists. -/
inductive WellFormed (book : String → Option (TypeTree ω)) : TypeTree ω → Prop
  | scalar (kind : Scalar) : WellFormed book (scalar kind)
  | stock {kind : Stock} (listed : book kind.name = some (stock kind)) : WellFormed book (stock kind)
  | array {element : TypeTree ω} : WellFormed book element → WellFormed book (array element)
  | union {members : List (TypeTree ω)} (each : ∀ member ∈ members, WellFormed book member) :
      WellFormed book (union members)
  | record {name : Option String} {attrs : Bool} {props : List (Property (TypeTree ω))}
      (nodup : (props.map Property.name).Nodup) (reserved : attrsKey ∉ props.map Property.name)
      (each : ∀ p ∈ props, WellFormed book p.type) : WellFormed book (record name attrs props)
  | ofClass {className : String} {inner : TypeTree ω} {construct : Json → Except String (Product ω)}
      (listed : book className = some (ofClass className inner construct)) :
      WellFormed book inner → WellFormed book (ofClass className inner construct)

theorem WellFormed.mono {book larger : String → Option (TypeTree ω)} {t : TypeTree ω}
    (wellFormed : WellFormed book t)
    (kept : ∀ name tree, book name = some tree → larger name = some tree) : WellFormed larger t := by
  induction wellFormed with
  | scalar kind => exact .scalar kind
  | stock listed => exact .stock (kept _ _ listed)
  | array _ ih => exact .array ih
  | union _ ih => exact .union ih
  | record nodup reserved _ ih => exact .record nodup reserved ih
  | ofClass listed _ ih => exact .ofClass (kept _ _ listed) ih

end TypeTree

end Conform
