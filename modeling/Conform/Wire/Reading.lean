import Conform.Record
import Conform.Wire

namespace Conform

inductive PropertyField where
  | name
  | type
  | optional
  deriving DecidableEq, Repr

def propertyForm : RecordForm PropertyField where
  name := "RawProperty"
  fields := [.name, .type, .optional]
  key
    | .name => "name"
    | .type => "type"
    | .optional => "optional"
  otherKeys _ := []
  required i := i ≠ .optional
  Value
    | .name => String
    | .type => WireType
    | .optional => Bool

inductive SchemaField where
  | name
  | props
  deriving DecidableEq, Repr

def schemaForm : RecordForm SchemaField where
  name := "RawSchema"
  fields := [.name, .props]
  key
    | .name => "name"
    | .props => "props"
  otherKeys
    | .name => []
    | .props => ["properties"]
  required _ := true
  Value
    | .name => String
    | .props => List (Property WireType)

namespace Wire

/-- A value and what it is when it stands for a type and when it stands for a property. -/
structure Part where
  value : Json
  type : WireType
  items : Option (List WireType)
  property : Reading (Property WireType)
  props : Reading (List (Property WireType))

def property (given : propertyForm.Given) : Reading (Property WireType) :=
  match given .name, given .type with
  | some name, some type => .ok ⟨name, type, (given .optional).getD false⟩
  | none, _ => Reading.fail (.missing "name")
  | _, none => Reading.fail (.missing "type")

def readPropertyField : (i : PropertyField) → Part → Reading (propertyForm.Value i)
  | .name, part => Reading.string part.value
  | .type, part => .ok part.type
  | .optional, part => Reading.boolean part.value

/-- The types, the string and the properties that a known form of types asks for under a key. -/
def typeAt (parts : List (String × Part)) (key : String) : Option WireType :=
  (Fields.get? key parts).map (·.type)

def stringAt (parts : List (String × Part)) (key : String) : Option String :=
  (Fields.get? key parts).bind fun part => (Reading.string part.value).toOption

def typesAt (parts : List (String × Part)) (key : String) : Option (List WireType) :=
  (Fields.get? key parts).bind (·.items)

/-- The properties are under one of two keys, not under both. -/
def propsIn (parts : List (String × Part)) : Option (List (Property WireType)) :=
  match Fields.get? "props" parts, Fields.get? "properties" parts with
  | some part, none | none, some part => part.props.toOption
  | _, _ => none

/-- The first form that the parts of an object have. -/
def typeOf (whole : Json) (parts : List (String × Part)) : WireType :=
  let forms : List (Option WireType) :=
    [(stringAt parts "referenceName").map .reference,
      (typeAt parts "arrayElementType").map .array,
      (stringAt parts "selfType").bind fun tag =>
        (typeAt parts "typeArgumentType").map (.parameterized tag),
      (stringAt parts "genericParameterName").bind fun tag =>
        (typeAt parts "genericParameterType").map (.generic tag),
      (typesAt parts "unionMembers").map .union,
      (propsIn parts).map .literal]
  (forms.findSome? id).getD (.other whole)

/-- A value without parts. -/
def leaf (value : Json) (type : WireType) : Part :=
  { value, type, items := none
    property := Reading.fail (.unexpected value ("struct " ++ propertyForm.name))
    props := Reading.fail (.unexpected value "a sequence") }

mutual
/-- Reads a value in each of the roles that it can play. -/
def part : Json → Part
  | .null => leaf .null .null
  | .bool b => leaf (.bool b) (.other (.bool b))
  | .num n => leaf (.num n) (.other (.num n))
  | .str s => leaf (.str s) (.keyword s)
  | .arr items =>
    let parts := partsOfItems items
    { value := .arr items
      type := .other (.arr items)
      items := some (parts.map (·.type))
      property := propertyForm.ofItems readPropertyField parts >>= property
      props := Reading.each (·.property) 0 parts }
  | .obj fields =>
    let parts := partsOfFields fields
    { value := .obj fields
      type := typeOf (.obj fields) parts
      items := none
      property := propertyForm.ofFields readPropertyField parts >>= property
      props := Reading.fail (.unexpected (.obj fields) "a sequence") }

def partsOfItems : List Json → List Part
  | [] => []
  | item :: rest => part item :: partsOfItems rest

def partsOfFields : List (String × Json) → List (String × Part)
  | [] => []
  | (key, value) :: rest => (key, part value) :: partsOfFields rest
end

end Wire

/-- Any JSON stands for a type. -/
def WireType.ofJson (value : Json) : WireType := (Wire.part value).type

def Schema.readField : (i : SchemaField) → Json → Reading (schemaForm.Value i)
  | .name, value => Reading.string value
  | .props, value => (Wire.part value).props

/-- Reads a schema from an object or from a list of its name and its properties. -/
def Schema.read (value : Json) : Reading (Schema WireType) := do
  let given ← schemaForm.ofJson Schema.readField value
  match given .name, given .props with
  | some name, some props => return ⟨name, props⟩
  | none, _ => Reading.fail (.missing "name")
  | _, none => Reading.fail (.missing "props")

end Conform
