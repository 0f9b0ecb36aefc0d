import Conform.Fields
import Conform.Json.Double
import Conform.Text

namespace Conform

/-- A number is an exact integer or a floating point number; the two are never equal. -/
inductive Number where
  | int (value : Int)
  | float (value : Double)
  deriving DecidableEq, Repr

namespace Number

def toDouble? : Number → Option Double
  | .int n => Double.ofInt? n
  | .float x => some x

/-- Both floating point zeros are the same number. -/
def normal : Number → Number
  | .int n => .int n
  | .float x => .float x.unsigned

end Number

inductive Json where
  | null
  | bool (value : Bool)
  | num (value : Number)
  | str (value : String)
  | arr (items : List Json)
  | obj (fields : List (String × Json))
  deriving Repr, Inhabited

namespace Json

mutual
def decEq : (a b : Json) → Decidable (a = b)
  | .null, .null => isTrue rfl
  | .bool a, .bool b => if h : a = b then isTrue (by rw [h]) else isFalse (by simp [h])
  | .num a, .num b => if h : a = b then isTrue (by rw [h]) else isFalse (by simp [h])
  | .str a, .str b => if h : a = b then isTrue (by rw [h]) else isFalse (by simp [h])
  | .arr a, .arr b =>
    match decEqItems a b with
    | isTrue h => isTrue (by rw [h])
    | isFalse h => isFalse (by simp [h])
  | .obj a, .obj b =>
    match decEqFields a b with
    | isTrue h => isTrue (by rw [h])
    | isFalse h => isFalse (by simp [h])
  | .null, .bool _ | .null, .num _ | .null, .str _ | .null, .arr _ | .null, .obj _
  | .bool _, .null | .bool _, .num _ | .bool _, .str _ | .bool _, .arr _ | .bool _, .obj _
  | .num _, .null | .num _, .bool _ | .num _, .str _ | .num _, .arr _ | .num _, .obj _
  | .str _, .null | .str _, .bool _ | .str _, .num _ | .str _, .arr _ | .str _, .obj _
  | .arr _, .null | .arr _, .bool _ | .arr _, .num _ | .arr _, .str _ | .arr _, .obj _
  | .obj _, .null | .obj _, .bool _ | .obj _, .num _ | .obj _, .str _ | .obj _, .arr _ =>
    isFalse (by simp)

def decEqItems : (a b : List Json) → Decidable (a = b)
  | [], [] => isTrue rfl
  | a :: as, b :: bs =>
    match decEq a b, decEqItems as bs with
    | isTrue h, isTrue hs => isTrue (by rw [h, hs])
    | isFalse h, _ => isFalse (by simp [h])
    | _, isFalse h => isFalse (by simp [h])
  | [], _ :: _ | _ :: _, [] => isFalse (by simp)

def decEqFields : (a b : List (String × Json)) → Decidable (a = b)
  | [], [] => isTrue rfl
  | (k, a) :: as, (l, b) :: bs =>
    if name : k = l then
      match decEq a b, decEqFields as bs with
      | isTrue h, isTrue hs => isTrue (by rw [name, h, hs])
      | isFalse h, _ => isFalse (by simp [h])
      | _, isFalse h => isFalse (by simp [h])
    else isFalse (by simp [name])
  | [], _ :: _ | _ :: _, [] => isFalse (by simp)
end

instance : DecidableEq Json := decEq

mutual
/-- The form in which equal values coincide: fields in the order of their names, one zero. -/
def normal : Json → Json
  | .num n => .num n.normal
  | .arr items => .arr (normalItems items)
  | .obj fields => .obj (Fields.sort (normalFields fields))
  | value => value

def normalItems : List Json → List Json
  | [] => []
  | item :: rest => normal item :: normalItems rest

def normalFields : List (String × Json) → List (String × Json)
  | [] => []
  | (key, value) :: rest => (key, normal value) :: normalFields rest
end

/-- Equality of values: the order of an object's fields and the sign of a zero do not count. -/
def same (a b : Json) : Bool := a.normal = b.normal

theorem same_iff {a b : Json} : same a b = true ↔ a.normal = b.normal := by simp [same]

theorem same_refl (a : Json) : same a a = true := by simp [same]

mutual
/-- Every object has each of its keys once. -/
def Distinct : Json → Prop
  | .arr items => DistinctItems items
  | .obj fields => (Fields.keys fields).Nodup ∧ DistinctFields fields
  | _ => True

def DistinctItems : List Json → Prop
  | [] => True
  | item :: rest => Distinct item ∧ DistinctItems rest

def DistinctFields : List (String × Json) → Prop
  | [] => True
  | (_, value) :: rest => Distinct value ∧ DistinctFields rest
end

def emptyObject : Json := .obj []

/-- The place in an array that a step of a pointer writes: no sign and no leading zero. -/
def arrayIndex? (token : List Char) : Option Nat :=
  match token with
  | [] => none
  | '0' :: _ :: _ => none
  | digits => if digits.all Char.isDigit then some (decimalValue digits) else none

/-- A step of a pointer, with its two escapes read: `~1` is a slash and `~0` is a tilde. -/
def pointerToken : List Char → List Char
  | '~' :: '1' :: rest => '/' :: pointerToken rest
  | '~' :: '0' :: rest => '~' :: pointerToken rest
  | c :: rest => c :: pointerToken rest
  | [] => []

def child? (token : List Char) : Json → Option Json
  | .obj fields => Fields.get? (String.ofList token) fields
  | .arr items => (arrayIndex? token).bind fun i => items[i]?
  | _ => none

/-- The value that a pointer such as `/data/0` leads to; the empty pointer leads to the whole. -/
def pointer? (path : String) (value : Json) : Option Json :=
  match path.toList with
  | [] => some value
  | '/' :: steps =>
    (splitSteps steps).foldlM (fun here token => child? (pointerToken token) here) value
  | _ => none
where
  splitSteps : List Char → List (List Char)
    | [] => [[]]
    | c :: rest =>
      match splitSteps rest with
      | [] => [[c]]
      | first :: others => if c = '/' then [] :: first :: others else (c :: first) :: others

end Json

end Conform
