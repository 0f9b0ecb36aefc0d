import Conform.Instant
import Conform.Json

namespace Conform

/-- What a constructor yields: a moment, or a value of the program's own type. -/
inductive Product (ω : Type) where
  | instant (moment : Instant)
  | made (object : ω)

/-- A decoded value: the form of its input, except where an object was constructed. There it keeps
the structural value that the object was made from. -/
inductive Decoded (ω : Type) where
  | null
  | bool (value : Bool)
  | num (value : Number)
  | str (value : String)
  | arr (items : List (Decoded ω))
  | obj (fields : List (String × Decoded ω))
  | constructed (className : String) (raw : Json) (object : Product ω)

namespace Decoded

variable {ω : Type}

mutual
def ofJson : Json → Decoded ω
  | .null => .null
  | .bool b => .bool b
  | .num n => .num n
  | .str s => .str s
  | .arr items => .arr (ofItems items)
  | .obj fields => .obj (ofFields fields)

def ofItems : List Json → List (Decoded ω)
  | [] => []
  | item :: rest => ofJson item :: ofItems rest

def ofFields : List (String × Json) → List (String × Decoded ω)
  | [] => []
  | (key, value) :: rest => (key, ofJson value) :: ofFields rest
end

mutual
/-- The structural view: what was constructed collapses to what it was made from. -/
def toJson : Decoded ω → Json
  | .null => .null
  | .bool b => .bool b
  | .num n => .num n
  | .str s => .str s
  | .arr items => .arr (itemsToJson items)
  | .obj fields => .obj (fieldsToJson fields)
  | .constructed _ raw _ => raw

def itemsToJson : List (Decoded ω) → List Json
  | [] => []
  | item :: rest => toJson item :: itemsToJson rest

def fieldsToJson : List (String × Decoded ω) → List (String × Json)
  | [] => []
  | (key, value) :: rest => (key, toJson value) :: fieldsToJson rest
end

mutual
/-- Whether an object was constructed anywhere inside. -/
def holdsConstructed : Decoded ω → Bool
  | .constructed _ _ _ => true
  | .arr items => itemsHoldConstructed items
  | .obj fields => fieldsHoldConstructed fields
  | _ => false

def itemsHoldConstructed : List (Decoded ω) → Bool
  | [] => false
  | item :: rest => holdsConstructed item || itemsHoldConstructed rest

def fieldsHoldConstructed : List (String × Decoded ω) → Bool
  | [] => false
  | (_, value) :: rest => holdsConstructed value || fieldsHoldConstructed rest
end

mutual
theorem toJson_ofJson : (v : Json) → (ofJson v : Decoded ω).toJson = v
  | .null | .bool _ | .num _ | .str _ => rfl
  | .arr items => by rw [ofJson, toJson, itemsToJson_ofItems items]
  | .obj fields => by rw [ofJson, toJson, fieldsToJson_ofFields fields]

theorem itemsToJson_ofItems : (items : List Json) →
    itemsToJson (ofItems items : List (Decoded ω)) = items
  | [] => rfl
  | item :: rest => by rw [ofItems, itemsToJson, toJson_ofJson item, itemsToJson_ofItems rest]

theorem fieldsToJson_ofFields : (fields : List (String × Json)) →
    fieldsToJson (ofFields fields : List (String × Decoded ω)) = fields
  | [] => rfl
  | (key, value) :: rest => by
    rw [ofFields, fieldsToJson, toJson_ofJson value, fieldsToJson_ofFields rest]
end

def get? (key : String) : Decoded ω → Option (Decoded ω)
  | .obj fields => Fields.get? key fields
  | _ => none

def string? : Decoded ω → Option String
  | .str s => some s
  | _ => none

def double? : Decoded ω → Option Double
  | .num n => n.toDouble?
  | _ => none

def items? : Decoded ω → Option (List (Decoded ω))
  | .arr items => some items
  | _ => none

def fields? : Decoded ω → Option (List (String × Decoded ω))
  | .obj fields => some fields
  | _ => none

def className? : Decoded ω → Option String
  | .constructed className _ _ => some className
  | _ => none

def isNull : Decoded ω → Bool
  | .null => true
  | _ => false

/-- The moment that was constructed here. -/
def instant? : Decoded ω → Option Instant
  | .constructed _ _ (.instant moment) => some moment
  | _ => none

end Decoded

end Conform
