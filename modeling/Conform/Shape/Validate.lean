import Conform.Shape

namespace Conform.Shape

variable {ω : Type}

/-- What was found in the parts of a composite value; a fatal error ends the search at once. -/
structure Findings (α : Type) where
  accepted : List α
  mismatches : List Mismatch

namespace Findings

variable {α β : Type}

def none : Findings α := ⟨[], []⟩

/-- Puts the result for a part before the findings of the parts after it, which are looked at only
if the part is not fatal. -/
def cons (part : Except Failure α) (rest : Except DecodeError (Findings α)) :
    Except DecodeError (Findings α) :=
  match part with
  | .error (.fatal e) => .error e
  | .error (.invalid found) => rest.map fun r => ⟨r.accepted, found ++ r.mismatches⟩
  | .ok d => rest.map fun r => ⟨d :: r.accepted, r.mismatches⟩

/-- The parts are accepted where no mismatch was found. -/
def finish (build : List α → β) : Except DecodeError (Findings α) → Except Failure β
  | .error e => .error (.fatal e)
  | .ok r => if r.mismatches.isEmpty then .ok (build r.accepted) else .error (.invalid r.mismatches)

end Findings

/-- Validates the items of a list from a place on. -/
def validateItems (validate : Json → Position → Validation ω) (here : Position) :
    (place : Nat) → List Json → Except DecodeError (Findings (Decoded ω))
  | _, [] => .ok .none
  | place, item :: rest =>
    Findings.cons (validate item (here.index place)) (validateItems validate here (place + 1) rest)

/-- The fields of an input with those that were decoded in their places. -/
def rebuild (fields : List (String × Json)) (decoded : List (String × Decoded ω)) :
    List (String × Decoded ω) :=
  fields.map fun (key, value) => (key, (Fields.last? key decoded).getD (.ofJson value))

/-- Joins what two sides decoded from one input. Each side passes through what it does not declare,
so what one side constructed is not replaced by the plain copy of the other. -/
def merge : Decoded ω → Decoded ω → Decoded ω
  | .obj left, .obj right => .obj (right.foldl (fun out (key, d) =>
      match Fields.get? key out with
      | some kept =>
        if kept.holdsConstructed && !d.holdsConstructed then out else Fields.insert key d out
      | none => Fields.insert key d out) left)
  | left, _ => left

def setAttrs : Decoded ω → Decoded ω
  | .obj fields => .obj (Fields.insert attrsKey (.obj []) fields)
  | d => d

/-- Hands a structural value to a constructor. -/
def constructFrom (className : String) (construct : Json → Except String (Product ω)) (raw : Json) :
    Validation ω :=
  match construct raw with
  | .ok product => .ok (.constructed className raw product)
  | .error message => .error (.fatal (.construction className message))

mutual
/-- Decodes an input that stands at a position. -/
def validate : Shape ω → Json → Position → Validation ω
  | .scalar .string, .str s, _ => .ok (.str s)
  | .scalar .number, .num n, _ => .ok (.num n)
  | .scalar .boolean, .bool b, _ => .ok (.bool b)
  | .scalar .null, .null, _ => .ok .null
  | .scalar kind, input, here => .error (.single here kind.name (some input))
  | .array element, input, here =>
    match input with
    | .arr items => Findings.finish .arr (validateItems (validate element) here 0 items)
    | _ => .error (.single here (array element).name (some input))
  | .union members, input, here =>
    match validateMembers members input here with
    | some result => result
    | none => .error (.single here (union members).name (some input))
  | .object name props lenient, input, here =>
    match input with
    | .obj fields =>
      Findings.finish (fun decoded => .obj (rebuild fields decoded))
        (validateProps lenient props fields here)
    | _ => .error (.single here name (some input))
  | .intersection _ left right, input, here =>
    match validate left input here, validate right input here with
    | .ok a, .ok b => .ok (merge a b)
    | .error f, .error g => .error (f.absorb g)
    | .error f, .ok _ => .error f
    | .ok _, .error g => .error g
  | .refine name base accepts, input, here =>
    match validate base input here with
    | .ok d => if accepts d then .ok d else .error (.single here name (some input))
    | .error f => .error f
  | .withAttrs inner, input, here => (validate inner input here).map setAttrs
  | .ofClass className inner showsAttrs construct, input, here =>
    match validate inner input here with
    | .ok structural =>
      let raw := encode inner structural
      constructFrom className construct (if showsAttrs then addAttrs raw else raw)
    | .error f => .error f
  | .custom _ validate _ _, input, here => validate input here

/-- The result of the first member that accepts or is fatal, else the failures of all members
joined; none without members. -/
def validateMembers : List (Shape ω) → Json → Position → Option (Validation ω)
  | [], _, _ => none
  | member :: rest, input, here =>
    match validate member input here with
    | .error (.invalid found) => some (validateOthers (.invalid found) rest input here)
    | result => some result

/-- Goes on with the members after a failure. -/
def validateOthers (earlier : Failure) : List (Shape ω) → Json → Position → Validation ω
  | [], _, _ => .error earlier
  | member :: rest, input, here =>
    match validate member input here with
    | .error (.invalid found) => validateOthers (earlier.absorb (.invalid found)) rest input here
    | result => result

/-- Validates the declared keys of an object in the order of their declaration. -/
def validateProps (lenient : Bool) : List (String × Shape ω) → List (String × Json) → Position →
    Except DecodeError (Findings (String × Decoded ω))
  | [], _, _ => .ok .none
  | (key, shape) :: rest, fields, here =>
    match Fields.get? key fields with
    | none =>
      if lenient then validateProps lenient rest fields here
      else Findings.cons (.error (.single (here.field key) shape.name none))
        (validateProps lenient rest fields here)
    | some value =>
      Findings.cons ((validate shape value (here.field key)).map fun d => (key, d))
        (validateProps lenient rest fields here)
end

/-- Decodes an input as a whole. -/
def decode (shape : Shape ω) (input : Json) : Validation ω :=
  shape.validate input (.top shape.name)

end Conform.Shape
