import Conform.Instant.Text
import Conform.Registry
import Conform.Shape.Validate

namespace Conform.Builtin

variable {ω : Type}

/-- A timestamp of RFC 3339, which becomes a moment and is written in UTC to the millisecond. -/
def date : Shape ω :=
  .custom "Date" validate encode (fun d => d.instant?.isSome)
where
  validate (input : Json) (here : Position) : Validation ω :=
    match input with
    | .str text =>
      match Instant.read? text with
      | some moment => .ok (.constructed "Date" input (.instant moment))
      | none => .error (.single here "Date" (some input))
    | _ => .error (.single here "Date" (some input))
  encode (d : Decoded ω) : Json :=
    match d.instant? with
    | some moment => .str moment.render
    | none => d.toJson

/-- Whether a number lies between two bounds, which belong to the range. -/
def inRange (low high : Double) (d : Decoded ω) : Bool :=
  d.double?.any fun x => low.le x && x.le high

/-- A number of at most a magnitude. -/
def bounded (name : String) (bound : Nat) : Shape ω :=
  let limit := (Double.ofInt? bound).getD (Double.zero false)
  .refine name .number (inRange (limit.withSign true) limit)

def latitude : Shape ω := bounded "Latitude" 90

def longitude : Shape ω := bounded "Longitude" 180

def nonEmptyString : Shape ω :=
  .refine "NonEmptyString" .string fun d => d.string?.any (!·.isEmpty)

/-- The stock types under their names. -/
def definitions : List (Definition ω) :=
  [date, latitude, longitude, nonEmptyString].map fun shape => .shape shape.name shape

/-- A registry that knows the stock types. -/
def registry : Registry ω := (Registry.empty.registerAll definitions).1

end Conform.Builtin
