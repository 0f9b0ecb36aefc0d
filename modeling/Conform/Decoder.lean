import Conform.Registry
import Conform.Shape.Validate

namespace Conform

variable {ω : Type}

/-- A registry after its setup: it only answers. -/
structure Decoder (ω : Type) where
  registry : Registry ω

namespace Decoder

/-- The decoder of a batch of definitions. -/
def ofDefinitions (definitions : List (Definition ω)) : Except SetupError (Decoder ω) :=
  match Registry.empty.registerAll definitions with
  | (registry, .ok ()) => .ok ⟨registry⟩
  | (_, .error e) => .error e

def resolve (d : Decoder ω) (target : Target) : Except DecodeError (Shape ω) :=
  (d.registry.resolveTarget target).mapError .unresolved

/-- Decodes an input as a target, or gives its mismatches. -/
def validate (d : Decoder ω) (target : Target) (input : Json) :
    Except DecodeError (Except (List Mismatch) (Decoded ω)) := do
  let shape ← d.resolve target
  match shape.decode input with
  | .ok decoded => return .ok decoded
  | .error (.invalid mismatches) => return .error mismatches
  | .error (.fatal e) => throw e

/-- Decodes an input as a target, or reports why it was rejected. -/
def decode (d : Decoder ω) (target : Target) (input : Json) :
    Except DecodeError (Except (List String) (Decoded ω)) :=
  (d.validate target input).map (Except.mapError report)

def decodeArray (d : Decoder ω) (element : Target) (input : Json) :
    Except DecodeError (Except (List String) (Decoded ω)) :=
  d.decode (.arrayOf element) input

def encode (d : Decoder ω) (target : Target) (value : Decoded ω) : Except DecodeError Json :=
  (d.resolve target).map fun shape => shape.encode value

end Decoder

end Conform
