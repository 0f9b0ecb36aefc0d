import Conform.Target

namespace Conform

variable {ω : Type}

/-- A class: what its schema accepts is handed to a constructor. -/
structure ClassDefinition (ω : Type) where
  className : String
  schema : Schema
  construct : Json → Except String (Product ω)

inductive Definition (ω : Type) where
  | schema (schema : Schema)
  | ofClass (definition : ClassDefinition ω)
  | shape (name : String) (shape : Shape ω)

/-- The names that a definition takes once it is registered. -/
def Definition.names : Definition ω → List String
  | schema s => [s.name]
  | ofClass c => [c.className, c.schema.name]
  | shape name _ => [name]

/-- A known name: declared, being registered, or registered with a shape and a note whether its
schema declares `attrs`. -/
inductive Slot (ω : Type) where
  | pending
  | resolving
  | resolved (shape : Shape ω) (attrs : Bool)

inductive EntryState where
  | pending
  | resolving
  | resolved
  deriving DecidableEq, Repr

def EntryState.name : EntryState → String
  | pending => "Pending"
  | resolving => "Resolving"
  | resolved => "Resolved"

def Slot.state : Slot ω → EntryState
  | pending => .pending
  | resolving => .resolving
  | resolved _ _ => .resolved

/-- The known names in the order in which they became known, and the factories by tag. -/
structure Registry (ω : Type) where
  slots : List (String × Slot ω)
  factories : List (String × Factory ω)

namespace Registry

/-- No name, and the factory of arrays. -/
def empty : Registry ω := ⟨[], [(arrayTag, .array)]⟩

def slot? (r : Registry ω) (name : String) : Option (Slot ω) := Fields.get? name r.slots

def setSlot (r : Registry ω) (name : String) (slot : Slot ω) : Registry ω :=
  { r with slots := Fields.insert name slot r.slots }

def removeSlot (r : Registry ω) (name : String) : Registry ω :=
  { r with slots := Fields.erase name r.slots }

def resolve (r : Registry ω) (name : String) : Except SetupError (Shape ω) :=
  match r.slot? name with
  | some (.resolved shape _) => .ok shape
  | some .resolving => .error (.cyclicDefinition name)
  | some .pending => .error (.forwardReference name)
  | none => .error (.unknownType name)

def factory (r : Registry ω) (tag : String) : Except SetupError (Factory ω) :=
  match Fields.get? tag r.factories with
  | some factory => .ok factory
  | none => .error (.unknownFactory tag)

def scope (r : Registry ω) : Scope ω := ⟨r.resolve, r.factory⟩

def resolveTarget (r : Registry ω) (target : Target) : Except SetupError (Shape ω) :=
  target.elaborate r.scope

def state? (r : Registry ω) (name : String) : Option EntryState := (r.slot? name).map Slot.state

def contains (r : Registry ω) (name : String) : Bool := r.state? name = some .resolved

/-- The registered names in the order of their slots. -/
def names (r : Registry ω) : List String :=
  (r.slots.filter fun (_, slot) => slot.state = .resolved).map Prod.fst

/-- Whether decoding as the name adds an empty `attrs`. -/
def synthesizesAttrs (r : Registry ω) (name : String) : Bool :=
  match r.slot? name with
  | some (.resolved _ attrs) => attrs
  | _ => false

def declare (r : Registry ω) (name : String) : Registry ω :=
  match r.slot? name with
  | some _ => r
  | none => r.setSlot name .pending

/-- Announces names; one that is known stays as it is. -/
def declareAll (r : Registry ω) (names : List String) : Registry ω := names.foldl declare r

def registerFactory (r : Registry ω) (tag : String) (factory : Factory ω) : Registry ω :=
  { r with factories := Fields.insert tag factory r.factories }

/-- Starts the registration of a name, and says whether it was declared before. -/
def start (r : Registry ω) (name : String) : Except SetupError (Registry ω × Bool) :=
  match r.slot? name with
  | some .resolving | some (.resolved _ _) => .error (.duplicateName name)
  | some .pending => .ok (r.setSlot name .resolving, true)
  | none => .ok (r.setSlot name .resolving, false)

def complete (r : Registry ω) (name : String) (shape : Shape ω) (attrs : Bool) : Registry ω :=
  r.setSlot name (.resolved shape attrs)

/-- Puts a name whose registration failed back to what it was. -/
def giveUp (r : Registry ω) (name : String) (wasPending : Bool) : Registry ω :=
  if wasPending then r.setSlot name .pending else r.removeSlot name

def registerSchema (r : Registry ω) (s : Schema) : Registry ω × Except SetupError (Shape ω) :=
  match r.start s.name with
  | .error e => (r, .error e)
  | .ok (started, wasPending) =>
    match s.elaborate started.scope with
    | .ok shape => (started.complete s.name shape (declaresAttrs s.props), .ok shape)
    | .error e => (started.giveUp s.name wasPending, .error e)

/-- The name of the class is being registered while its schema is, so a schema that refers back to
its class is a cycle. -/
def registerClass (r : Registry ω) (c : ClassDefinition ω) : Registry ω × Except SetupError Unit :=
  match r.start c.className with
  | .error e => (r, .error e)
  | .ok (started, wasPending) =>
    match started.registerSchema c.schema with
    | (registered, .ok inner) =>
      let attrs := registered.synthesizesAttrs c.schema.name
      (registered.complete c.className (.ofClass c.className inner attrs c.construct) attrs, .ok ())
    | (rest, .error e) => (rest.giveUp c.className wasPending, .error e)

def registerShape (r : Registry ω) (name : String) (shape : Shape ω) :
    Registry ω × Except SetupError Unit :=
  match r.start name with
  | .error e => (r, .error e)
  | .ok (started, _) => (started.complete name shape false, .ok ())

def register (r : Registry ω) : Definition ω → Registry ω × Except SetupError Unit
  | .schema s => ((r.registerSchema s).1, (r.registerSchema s).2.map fun _ => ())
  | .ofClass c => r.registerClass c
  | .shape name shape => r.registerShape name shape

/-- Registers one definition after another up to the first error. -/
def registerEach (r : Registry ω) : List (Definition ω) → Registry ω × Except SetupError Unit
  | [] => (r, .ok ())
  | definition :: rest =>
    match r.register definition with
    | (registered, .ok ()) => registered.registerEach rest
    | (failed, .error e) => (failed, .error e)

/-- Declares every name of a batch, then registers its definitions in order. -/
def registerAll (r : Registry ω) (definitions : List (Definition ω)) :
    Registry ω × Except SetupError Unit :=
  (r.declareAll (definitions.flatMap Definition.names)).registerEach definitions

end Registry

end Conform
