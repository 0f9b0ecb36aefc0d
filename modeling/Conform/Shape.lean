import Conform.Decoded
import Conform.Failure

namespace Conform

/-- The reserved key: never read from an input, always an empty object after decoding. -/
def attrsKey : String := "attrs"

inductive Scalar where
  | string
  | number
  | boolean
  | null
  deriving DecidableEq, Repr

def Scalar.name : Scalar → String
  | string => "string"
  | number => "number"
  | boolean => "boolean"
  | null => "null"

abbrev Validation (ω : Type) := Except Failure (Decoded ω)

/-- A validator and encoder of one type. Constructed objects of the program are of the type `ω`.

An object checks its declared keys and passes the others through; unless it is lenient, a declared
key must be present. A union takes the first member that accepts. An intersection takes what both
sides accept. A class hands what its inner shape accepts to a constructor, and shows it an empty
`attrs` where it is told to. -/
inductive Shape (ω : Type) where
  | scalar (kind : Scalar)
  | array (element : Shape ω)
  | union (members : List (Shape ω))
  | object (name : String) (props : List (String × Shape ω)) (lenient : Bool)
  | intersection (name : String) (left right : Shape ω)
  | refine (name : String) (base : Shape ω) (accepts : Decoded ω → Bool)
  | withAttrs (inner : Shape ω)
  | ofClass (className : String) (inner : Shape ω) (showsAttrs : Bool)
      (construct : Json → Except String (Product ω))
  | custom (name : String) (validate : Json → Position → Validation ω)
      (encode : Decoded ω → Json) (is : Decoded ω → Bool)

namespace Shape

variable {ω : Type}

mutual
/-- The name that mismatches say was expected. -/
def name : Shape ω → String
  | .scalar kind => kind.name
  | .array element => "Array<" ++ name element ++ ">"
  | .union members => " | ".intercalate (memberNames members)
  | .object name _ _ => name
  | .intersection name _ _ => name
  | .refine name _ _ => name
  | .withAttrs inner => name inner
  | .ofClass className _ _ _ => className
  | .custom name _ _ _ => name

def memberNames : List (Shape ω) → List String
  | [] => []
  | member :: rest => name member :: memberNames rest
end

def string : Shape ω := .scalar .string

def number : Shape ω := .scalar .number

def boolean : Shape ω := .scalar .boolean

def null : Shape ω := .scalar .null

/-- The first of the members that accepts; one member alone stands for itself. -/
def oneOf : List (Shape ω) → Shape ω
  | [member] => member
  | members => .union members

/-- The declared keys and their types between braces. -/
def describe (props : List (String × Shape ω)) : String :=
  "\x7b " ++ ", ".intercalate (props.map fun (key, shape) => key ++ ": " ++ shape.name) ++ " \x7d"

/-- An object in which every declared key must be present. -/
def strict (name : Option String) (props : List (String × Shape ω)) : Shape ω :=
  .object (name.getD (describe props)) props false

/-- An object in which declared keys may be absent. -/
def lenient (name : Option String) (props : List (String × Shape ω)) : Shape ω :=
  .object (name.getD ("Partial<" ++ describe props ++ ">")) props true

def both (name : Option String) (left right : Shape ω) : Shape ω :=
  .intersection (name.getD ("(" ++ left.name ++ " & " ++ right.name ++ ")")) left right

def matching (name : String) (accepts : String → Bool) : Shape ω :=
  .refine name string fun d => d.string?.any accepts

mutual
/-- Whether a decoded value belongs to the type. -/
def is : Shape ω → Decoded ω → Bool
  | .scalar .string, .str _ => true
  | .scalar .number, .num _ => true
  | .scalar .boolean, .bool _ => true
  | .scalar .null, .null => true
  | .scalar _, _ => false
  | .array element, .arr items => items.all (is element)
  | .array _, _ => false
  | .union members, d => someIs members d
  | .object _ props lenient, .obj fields => propsAre lenient props fields
  | .object _ _ _, _ => false
  | .intersection _ left right, d => is left d && is right d
  | .refine _ base accepts, d => is base d && accepts d
  | .withAttrs inner, d => is inner d
  | .ofClass className _ _ _, .constructed other _ _ => other = className
  | .ofClass _ _ _ _, _ => false
  | .custom _ _ _ is, d => is d

def someIs : List (Shape ω) → Decoded ω → Bool
  | [], _ => false
  | member :: rest, d => is member d || someIs rest d

def propsAre (lenient : Bool) :
    List (String × Shape ω) → List (String × Decoded ω) → Bool
  | [], _ => true
  | (key, shape) :: rest, fields =>
    (match Fields.get? key fields with
      | some d => is shape d
      | none => lenient) && propsAre lenient rest fields
end

/-- The fields of a part that differ from the plain ones, put over what was overlaid before. -/
def overlay (plain : List (String × Json)) (done : List (String × Json)) :
    Json → List (String × Json)
  | .obj fields => fields.foldl (fun out (key, value) =>
      match Fields.get? key plain with
      | some old => if old.same value then out else Fields.insert key value out
      | none => Fields.insert key value out) done
  | _ => done

def withoutAttrs : Json → Json
  | .obj fields => .obj (Fields.swapErase attrsKey fields)
  | value => value

def addAttrs : Json → Json
  | .obj fields => .obj (Fields.insert attrsKey Json.emptyObject fields)
  | value => value

mutual
/-- The JSON form of a decoded value. A value of another form than the type's is written as its
structural view. -/
def encode : Shape ω → Decoded ω → Json
  | .scalar _, d => d.toJson
  | .array element, .arr items => .arr (items.map (encode element))
  | .array _, d => d.toJson
  | .union members, d => (encodeByFirst members d).getD d.toJson
  | .object _ props _, .obj fields =>
    .obj (fields.map fun (key, d) => (key, (encodeProp props key d).getD d.toJson))
  | .object _ _ _, d => d.toJson
  | .intersection _ left right, d =>
    match d.toJson with
    | .obj plain => .obj (overlay plain (overlay plain plain (encode left d)) (encode right d))
    | _ => encode left d
  | .refine _ base _, d => encode base d
  | .withAttrs inner, d => withoutAttrs (encode inner d)
  | .ofClass className inner showsAttrs _, d =>
    match d with
    | .constructed other raw _ =>
      if other = className then (if showsAttrs then withoutAttrs raw else raw)
      else encode inner d
    | d => encode inner d
  | .custom _ _ encode _, d => encode d

/-- The encoding by the first member that the value belongs to. -/
def encodeByFirst : List (Shape ω) → Decoded ω → Option Json
  | [], _ => none
  | member :: rest, d => if is member d then some (encode member d) else encodeByFirst rest d

/-- The encoding by the last declaration of a key. -/
def encodeProp : List (String × Shape ω) → String → Decoded ω → Option Json
  | [], _, _ => none
  | (declared, shape) :: rest, key, d =>
    (encodeProp rest key d).or (if declared = key then some (encode shape d) else none)
end

end Shape

end Conform
