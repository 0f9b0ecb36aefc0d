import Conform.Decoder
import Conform.Record

namespace Conform

/-!
The inspection text of a value: its constructor with what it holds, for logs and tests.
-/

mutual
def Json.inspect : Json → String
  | .null => "Null"
  | .bool b => "Bool(" ++ (if b then "true" else "false") ++ ")"
  | .num n => "Number(" ++ n.render ++ ")"
  | .str s => "String(" ++ quoteSource s ++ ")"
  | .arr items => "Array [" ++ ", ".intercalate (inspectItems items) ++ "]"
  | .obj fields => "Object \x7b" ++ ", ".intercalate (inspectFields fields) ++ "\x7d"

def Json.inspectItems : List Json → List String
  | [] => []
  | item :: rest => inspect item :: inspectItems rest

def Json.inspectFields : List (String × Json) → List String
  | [] => []
  | (key, value) :: rest => (quoteSource key ++ ": " ++ inspect value) :: inspectFields rest
end

variable {ω : Type}

mutual
def Decoded.inspect : Decoded ω → String
  | .null => "Null"
  | .bool b => "Bool(" ++ (if b then "true" else "false") ++ ")"
  | .num n => "Number(Number(" ++ n.render ++ "))"
  | .str s => "String(" ++ quoteSource s ++ ")"
  | .arr items => "Array([" ++ ", ".intercalate (inspectItems items) ++ "])"
  | .obj fields => "Object(\x7b" ++ ", ".intercalate (inspectFields fields) ++ "\x7d)"
  | .constructed className raw _ =>
    "Instance(Instance \x7b class: " ++ quoteSource className ++ ", raw: " ++ raw.inspect ++
      ", .. \x7d)"

def Decoded.inspectItems : List (Decoded ω) → List String
  | [] => []
  | item :: rest => inspect item :: inspectItems rest

def Decoded.inspectFields : List (String × Decoded ω) → List String
  | [] => []
  | (key, value) :: rest => (quoteSource key ++ ": " ++ inspect value) :: inspectFields rest
end

def Shape.inspect (shape : Shape ω) : String := "Caster(" ++ shape.name ++ ")"

def Registry.inspect (r : Registry ω) : String :=
  let slot := fun (entry : String × Slot ω) =>
    "(" ++ quoteSource entry.1 ++ ", " ++ entry.2.state.name ++ ")"
  "Registry \x7b slots: [" ++ ", ".intercalate (r.slots.map slot) ++ "], factories: [" ++
    ", ".intercalate ((Fields.keys r.factories).map quoteSource) ++ "] \x7d"

def Decoder.inspect (d : Decoder ω) : String :=
  "Decoder \x7b registry: " ++ d.registry.inspect ++ " \x7d"

end Conform
