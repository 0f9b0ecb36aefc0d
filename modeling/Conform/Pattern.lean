namespace Conform

/-- The zeros of the decimal digits of Unicode 16; each is followed by the other nine. -/
def digitZeros : List Nat :=
  [0x30, 0x660, 0x6f0, 0x7c0, 0x966, 0x9e6, 0xa66, 0xae6, 0xb66, 0xbe6, 0xc66, 0xce6, 0xd66, 0xde6,
    0xe50, 0xed0, 0xf20, 0x1040, 0x1090, 0x17e0, 0x1810, 0x1946, 0x19d0, 0x1a80, 0x1a90, 0x1b50,
    0x1bb0, 0x1c40, 0x1c50, 0xa620, 0xa8d0, 0xa900, 0xa9d0, 0xa9f0, 0xaa50, 0xabf0, 0xff10, 0x104a0,
    0x10d30, 0x10d40, 0x11066, 0x110f0, 0x11136, 0x111d0, 0x112f0, 0x11450, 0x114d0, 0x11650,
    0x116c0, 0x116d0, 0x116da, 0x11730, 0x118e0, 0x11950, 0x11bf0, 0x11c50, 0x11d50, 0x11da0,
    0x11f50, 0x16130, 0x16a60, 0x16ac0, 0x16b50, 0x16d70, 0x1ccf0, 0x1d7ce, 0x1d7d8, 0x1d7e2,
    0x1d7ec, 0x1d7f6, 0x1e140, 0x1e2f0, 0x1e4f0, 0x1e5f1, 0x1e950, 0x1fbf0]

/-- Whether a character is a decimal digit of some script. -/
def isDecimalDigit (c : Char) : Bool :=
  digitZeros.any fun first => first ≤ c.toNat && c.toNat < first + 10

/-- A set of characters: it holds the ranges, or all but them. -/
structure CharSet where
  ranges : List (Char × Char)
  digits : Bool
  negated : Bool
  deriving Repr

def CharSet.holds (set : CharSet) (c : Char) : Bool :=
  (set.ranges.any (fun (low, high) => low ≤ c && c ≤ high) || (set.digits && isDecimalDigit c)) !=
    set.negated

/-- A regular expression over the characters of a text. -/
inductive Pattern where
  | empty
  | start
  | finish
  | char (set : CharSet)
  | sequence (first second : Pattern)
  | choice (first second : Pattern)
  | repeated (body : Pattern) (least : Nat) (most : Option Nat)
  deriving Repr

/-- A place in a text: whether it is the first one, and what follows. -/
structure Cursor where
  atStart : Bool
  rest : List Char
  deriving DecidableEq, Repr

namespace Pattern

/-- Takes a step between `least` and `most` times; `steps` bounds the number beyond `least`. -/
def iterate (step : Cursor → List Cursor) : (least steps : Nat) → Cursor → List Cursor
  | 0, 0, here => [here]
  | 0, steps + 1, here => here :: (step here).flatMap (iterate step 0 steps)
  | least + 1, steps, here => (step here).flatMap (iterate step least steps)

/-- The places that a match which begins at a place can end at. -/
def run : Pattern → Cursor → List Cursor
  | .empty, here => [here]
  | .start, here => if here.atStart then [here] else []
  | .finish, here => if here.rest.isEmpty then [here] else []
  | .char set, here =>
    match here.rest with
    | c :: rest => if set.holds c then [⟨false, rest⟩] else []
    | [] => []
  | .sequence first second, here => (run first here).flatMap (run second)
  | .choice first second, here => run first here ++ run second here
  | .repeated body least most, here =>
    iterate (run body) least ((most.map (· - least)).getD here.rest.length) here

/-- Whether the pattern matches from some place of a text on. -/
def search (p : Pattern) (atStart : Bool) : List Char → Bool
  | [] => !(p.run ⟨atStart, []⟩).isEmpty
  | c :: rest => !(p.run ⟨atStart, c :: rest⟩).isEmpty || search p false rest

/-- Whether the pattern matches somewhere in a text. -/
def occursIn (p : Pattern) (text : String) : Bool := p.search true text.toList

end Pattern

end Conform
