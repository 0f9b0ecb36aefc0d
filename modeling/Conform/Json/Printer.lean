import Conform.Json

namespace Conform

/-- Positional up to the exponent 15 and down to -5, with one digit after the point at least;
beyond that one digit, the others after the point, and a signed exponent. -/
def Double.render (x : Double) : String :=
  let sign := if x.negative then "-" else ""
  if x.isZero then sign ++ "0.0"
  else
    let (digits, scale) := x.shortest
    let text := Nat.toDigits 10 digits
    let exponent := scale + text.length - 1
    let zeros (n : Int) := List.replicate n.toNat '0'
    let body : List Char :=
      if 15 < exponent ∨ exponent < -5 then
        let fraction := if text.length ≤ 1 then [] else '.' :: text.tail
        text.take 1 ++ fraction ++ ['e', if exponent < 0 then '-' else '+'] ++
          Nat.toDigits 10 exponent.natAbs
      else if exponent < 0 then '0' :: '.' :: zeros (-exponent - 1) ++ text
      else if 0 ≤ scale then text ++ zeros scale ++ ['.', '0']
      else text.take (exponent.toNat + 1) ++ '.' :: text.drop (exponent.toNat + 1)
    sign ++ String.ofList body

def Number.renderInt (n : Int) : String :=
  String.ofList ((if n < 0 then ['-'] else []) ++ Nat.toDigits 10 n.natAbs)

def Number.render : Number → String
  | .int n => renderInt n
  | .float x => x.render

namespace Json

/-- Quotes, backslashes and the control characters below the blank are escaped, all else stands as
it is. -/
def escape (c : Char) : List Char :=
  match c with
  | '"' => ['\\', '"']
  | '\\' => ['\\', '\\']
  | '\n' => ['\\', 'n']
  | '\r' => ['\\', 'r']
  | '\t' => ['\\', 't']
  | '\x08' => ['\\', 'b']
  | '\x0c' => ['\\', 'f']
  | c =>
    if c.toNat < 32 then
      ['\\', 'u', '0', '0', Nat.digitChar (c.toNat / 16), Nat.digitChar (c.toNat % 16)]
    else [c]

def quote (text : String) : String :=
  String.ofList ('"' :: text.toList.flatMap escape ++ ['"'])

mutual
/-- The text of a value without blanks. -/
def render : Json → String
  | .null => "null"
  | .bool true => "true"
  | .bool false => "false"
  | .num n => n.render
  | .str s => quote s
  | .arr items => "[" ++ ",".intercalate (renderItems items) ++ "]"
  | .obj fields => "\x7b" ++ ",".intercalate (renderFields fields) ++ "\x7d"

def renderItems : List Json → List String
  | [] => []
  | item :: rest => render item :: renderItems rest

def renderFields : List (String × Json) → List String
  | [] => []
  | (key, value) :: rest => (quote key ++ ":" ++ render value) :: renderFields rest
end

/-- Lines between two brackets, each indented by two blanks for each level; no line, no break. -/
def block (opening closing : String) (depth : Nat) (lines : List String) : String :=
  let line (level : Nat) := "\n" ++ String.ofList (List.replicate (2 * level) ' ')
  if lines.isEmpty then opening ++ closing
  else opening ++ ",".intercalate (lines.map (line (depth + 1) ++ ·)) ++ line depth ++ closing

mutual
/-- The text of a value with an item a line. -/
def pretty (depth : Nat) : Json → String
  | .arr items => block "[" "]" depth (prettyItems (depth + 1) items)
  | .obj fields => block "\x7b" "\x7d" depth (prettyFields (depth + 1) fields)
  | value => render value

def prettyItems (depth : Nat) : List Json → List String
  | [] => []
  | item :: rest => pretty depth item :: prettyItems depth rest

def prettyFields (depth : Nat) : List (String × Json) → List String
  | [] => []
  | (key, value) :: rest => (quote key ++ ": " ++ pretty depth value) :: prettyFields depth rest
end

end Json

end Conform
