import Conform.Json.Printer
import Conform.Json.Reader

namespace Conform.Filter

/-- The result of an arithmetic operation: a finite number, an infinity, or no number. -/
inductive Real where
  | finite (x : Double)
  | infinite (negative : Bool)
  | undefined
  deriving DecidableEq, Repr

namespace Real

def ofOption (negative : Bool) : Option Double → Real
  | some x => .finite x
  | none => .infinite negative

def ofInt (n : Int) : Real := ofOption (n < 0) (Double.ofInt? n)

def negate : Real → Real
  | .finite x => .finite (x.withSign !x.negative)
  | .infinite negative => .infinite !negative
  | .undefined => .undefined

def abs : Real → Real
  | .finite x => .finite x.abs
  | .infinite _ => .infinite false
  | .undefined => .undefined

def add : Real → Real → Real
  | .undefined, _ | _, .undefined => .undefined
  | .infinite a, .infinite b => if a = b then .infinite a else .undefined
  | .infinite a, .finite _ | .finite _, .infinite a => .infinite a
  | .finite x, .finite y => ofOption x.negative (x.add? y)

/-- The order of numbers; what is no number comes before everything, itself too. -/
def compare : Real → Real → Ordering
  | .undefined, _ => .lt
  | _, .undefined => .gt
  | .infinite a, .infinite b => if a = b then .eq else if a then .lt else .gt
  | .infinite a, .finite _ => if a then .lt else .gt
  | .finite _, .infinite b => if b then .gt else .lt
  | .finite x, .finite y => Ord.compare x.units y.units

/-- The number nearest to a decimal numeral, by one rounding. -/
def ofNumeral (text : String) : Real :=
  let (negative, body) := match text.toList with
    | '-' :: rest => (true, rest)
    | rest => (false, rest)
  let isMark (c : Char) := c = 'e' || c = 'E'
  let (mantissa, power) := (body.takeWhile (!isMark ·), (body.dropWhile (!isMark ·)).drop 1)
  let (whole, fraction) := (mantissa.takeWhile (· ≠ '.'), (mantissa.dropWhile (· ≠ '.')).drop 1)
  let exponent : Int := match power with
    | '-' :: digits => -decimalValue digits
    | '+' :: digits => decimalValue digits
    | digits => decimalValue digits
  let scale := exponent - fraction.length
  let digits := decimalValue (whole ++ fraction)
  if digits = 0 then .finite (Double.zero negative)
  else if 400 < scale + (whole.length + fraction.length) then .infinite negative
  else if scale + (whole.length + fraction.length) < -400 then .finite (Double.zero negative)
  else
    ofOption negative
      (Double.ofRatio negative (digits * Nat.pow 10 scale.toNat) (Nat.pow 10 (-scale).toNat))

end Real

/-- A value that filters work on. A number that is no machine integer keeps the text it was written
with until it is computed with. -/
inductive Value where
  | null
  | bool (value : Bool)
  | int (value : Int)
  | decimal (text : String)
  | real (value : Real)
  | str (value : String)
  | arr (items : List Value)
  | obj (fields : List (String × Value))
  deriving Inhabited

namespace Value

def ofNumber : Number → Value
  | .int n => if -Int.pow 2 63 ≤ n ∧ n < Int.pow 2 63 then .int n else .decimal (Number.renderInt n)
  | .float x => .decimal x.render

mutual
def ofJson : Json → Value
  | .null => .null
  | .bool b => .bool b
  | .num n => ofNumber n
  | .str s => .str s
  | .arr items => .arr (ofItems items)
  | .obj fields => .obj (ofFields fields)

def ofItems : List Json → List Value
  | [] => []
  | item :: rest => ofJson item :: ofItems rest

def ofFields : List (String × Json) → List (String × Value)
  | [] => []
  | (key, value) :: rest => (key, ofJson value) :: ofFields rest
end

mutual
/-- The text of a value. What is not finite is written as null. -/
def render : Value → String
  | .null => "null"
  | .bool true => "true"
  | .bool false => "false"
  | .int n => Number.renderInt n
  | .decimal text => text
  | .real (.finite x) => x.render
  | .real _ => "null"
  | .str s => Json.quote s
  | .arr items => "[" ++ ",".intercalate (renderItems items) ++ "]"
  | .obj fields => "\x7b" ++ ",".intercalate (renderFields fields) ++ "\x7d"

def renderItems : List Value → List String
  | [] => []
  | item :: rest => render item :: renderItems rest

def renderFields : List (String × Value) → List String
  | [] => []
  | (key, value) :: rest => (Json.quote key ++ ":" ++ render value) :: renderFields rest
end

mutual
/-- The value with the fields of its objects in the order of their names. -/
def sorted : Value → Value
  | .arr items => .arr (sortedItems items)
  | .obj fields => .obj (Fields.sort (sortedFields fields))
  | value => value

def sortedItems : List Value → List Value
  | [] => []
  | item :: rest => sorted item :: sortedItems rest

def sortedFields : List (String × Value) → List (String × Value)
  | [] => []
  | (key, value) :: rest => (key, sorted value) :: sortedFields rest
end

/-- The number that a value computes with. -/
def real? : Value → Option Real
  | .int n => some (.ofInt n)
  | .decimal text => some (.ofNumeral text)
  | .real x => some x
  | _ => none

/-- The place of a kind of values in the order of all values. -/
def rank : Value → Nat
  | .null => 0
  | .bool false => 1
  | .bool true => 2
  | .int _ | .decimal _ | .real _ => 3
  | .str _ => 4
  | .arr _ => 5
  | .obj _ => 6

def compareKeys : List (String × Value) → List (String × Value) → Ordering
  | [], [] => .eq
  | [], _ :: _ => .lt
  | _ :: _, [] => .gt
  | (k, _) :: rest, (l, _) :: others => (Ord.compare k l).then (compareKeys rest others)

mutual
/-- The order of values whose objects are sorted: by kind, then by content; objects by their keys
and then by their values. -/
def compareSorted : Value → Value → Ordering
  | .int m, .int n => Ord.compare m n
  | .str s, .str t => Ord.compare s t
  | .arr a, .arr b => compareItems a b
  | .obj a, .obj b => (compareKeys a b).then (compareFields a b)
  | a, b =>
    match a.real?, b.real? with
    | some x, some y => x.compare y
    | _, _ => Ord.compare a.rank b.rank

def compareItems : List Value → List Value → Ordering
  | [], [] => .eq
  | [], _ :: _ => .lt
  | _ :: _, [] => .gt
  | a :: rest, b :: others => (compareSorted a b).then (compareItems rest others)

def compareFields : List (String × Value) → List (String × Value) → Ordering
  | [], [] => .eq
  | [], _ :: _ => .lt
  | _ :: _, [] => .gt
  | (_, a) :: rest, (_, b) :: others => (compareSorted a b).then (compareFields rest others)
end

def compare (a b : Value) : Ordering := compareSorted a.sorted b.sorted

def isTrue : Value → Bool
  | .null | .bool false => false
  | _ => true

/-- An integer in 64 bits: what does not fit is reduced modulo `2 ^ 64`. -/
def wrap (n : Int) : Int := Int.bmod n (Nat.pow 2 64)

/-- A sum of numbers, a joined text or list, or the fields of both objects; null adds nothing. -/
def add? : Value → Value → Option Value
  | .null, b => some b
  | a, .null => some a
  | .int m, .int n => some (.int (wrap (m + n)))
  | .str s, .str t => some (.str (s ++ t))
  | .arr a, .arr b => some (.arr (a ++ b))
  | .obj a, .obj b => some (.obj (b.foldl (fun out (key, value) => Fields.insert key value out) a))
  | a, b =>
    match a.real?, b.real? with
    | some x, some y => some (.real (x.add y))
    | _, _ => none

/-- The object of one field. -/
def single? : Value → Value → Option Value
  | .str key, value => some (.obj [(key, value)])
  | _, _ => none

def negate? : Value → Option Value
  | .int n => some (.int (wrap (-n)))
  | value => value.real?.map fun x => .real x.negate

/-- The size of a list, an object or a text; of a number its magnitude. -/
def length? : Value → Option Value
  | .null => some (.int 0)
  | .bool _ => none
  | .int n => some (.int (wrap n.natAbs))
  | .str s => some (.int s.length)
  | .arr items => some (.int items.length)
  | .obj fields => some (.int fields.length)
  | value => value.real?.map fun x => .real x.abs

/-- The places of a list, or the keys of an object in their order. -/
def keys? : Value → Option Value
  | .arr items => some (.arr ((List.range items.length).map fun (n : Nat) => .int n))
  | .obj fields => some (.arr ((Fields.keys (Fields.sort fields)).map .str))
  | _ => none

/-- The items of a list or the values of an object. -/
def children? : Value → Option (List Value)
  | .arr items => some items
  | .obj fields => some (fields.map Prod.snd)
  | _ => none

/-- An item of a list, counted from the end where the place is negative, or a value of an object;
null where there is none. -/
def index? : Value → Value → Option Value
  | .arr items, .int n =>
    let place := if n < 0 then n + items.length else n
    some (if place < 0 then .null else items[place.toNat]?.getD .null)
  | .obj fields, .str key => some ((Fields.get? key fields).getD .null)
  | _, _ => none

/-- A bound of a slice as a place between the ends. -/
def bound? (length : Nat) (value : Value) : Option Nat :=
  match value with
  | .int n => some (min (if n < 0 then n + length else n).toNat length)
  | _ => none

/-- The part of a list or of a text between two places; a bound that is not given is the end. -/
def slice? (value : Value) (low high : Option Value) : Option Value :=
  match value with
  | .arr items => (cut items).map .arr
  | .str s => (cut s.toList).map fun chars => .str (String.ofList chars)
  | _ => none
where
  cut {α : Type} (items : List α) : Option (List α) := do
    let first ← low.elim (some 0) (bound? items.length)
    let past ← high.elim (some items.length) (bound? items.length)
    return (items.take past).drop first

end Value

end Conform.Filter
