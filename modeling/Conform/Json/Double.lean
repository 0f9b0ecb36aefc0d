namespace Conform

/-- A finite floating point number of 64 bits with the magnitude `significand · 2 ^ exponent`.
The functions below build it with `significand < 2 ^ 53`, with the least exponent `-1074`, and with
a significand of 53 bits above that exponent, so each number has one form. -/
structure Double where
  negative : Bool
  significand : Nat
  exponent : Int
  deriving DecidableEq, Repr

namespace Double

def zero (negative : Bool) : Double := ⟨negative, 0, -1074⟩

def isZero (x : Double) : Bool := x.significand == 0

def abs (x : Double) : Double := { x with negative := false }

def withSign (x : Double) (negative : Bool) : Double := { x with negative }

/-- The nearest integer to a quotient; a half goes to the even neighbour. -/
def roundQuotient (num den : Nat) : Nat :=
  let q := num / den
  let twice := 2 * (num % den)
  if twice < den then q else if den < twice then q + 1 else q + q % 2

/-- `num · 2 ^ -e / den` as a quotient of natural numbers. -/
def scaled (num den : Nat) (e : Int) : Nat × Nat :=
  if 0 ≤ e then (num, den * Nat.pow 2 e.toNat) else (num * Nat.pow 2 (-e).toNat, den)

/-- The number nearest to `num / den`, or none where that is beyond the largest one. -/
def ofRatio (negative : Bool) (num den : Nat) : Option Double :=
  if num = 0 then some (zero negative)
  else
    let low := max ((num.log2 : Int) - den.log2 - 53) (-1074)
    let e := if (scaled num den low).1 / (scaled num den low).2 < Nat.pow 2 53 then low else low + 1
    let m := roundQuotient (scaled num den e).1 (scaled num den e).2
    let rounded : Double := if m = Nat.pow 2 53 then ⟨negative, Nat.pow 2 52, e + 1⟩ else ⟨negative, m, e⟩
    if rounded.exponent ≤ 971 then some rounded else none

/-- The number nearest to `num · 2 ^ e / den`. -/
def ofScaledRatio (negative : Bool) (num den : Nat) (e : Int) : Option Double :=
  if 0 ≤ e then ofRatio negative (num * Nat.pow 2 e.toNat) den
  else ofRatio negative num (den * Nat.pow 2 (-e).toNat)

def ofInt? (n : Int) : Option Double := ofRatio (n < 0) n.natAbs 1

def mul? (x y : Double) : Option Double :=
  ofScaledRatio (x.negative != y.negative) (x.significand * y.significand) 1
    (x.exponent + y.exponent)

/-- The quotient by a number that is not zero. -/
def div? (x y : Double) : Option Double :=
  ofScaledRatio (x.negative != y.negative) x.significand y.significand (x.exponent - y.exponent)

def add? (x y : Double) : Option Double :=
  let e := min x.exponent y.exponent
  let part (z : Double) : Int :=
    (if z.negative then -1 else 1) * (z.significand * Nat.pow 2 (z.exponent - e).toNat : Nat)
  let sum := part x + part y
  if sum = 0 then some (zero (x.negative && y.negative))
  else ofScaledRatio (sum < 0) sum.natAbs 1 e

/-- The value in units of `2 ^ -1074`. -/
def units (x : Double) : Int :=
  (if x.negative then -1 else 1) * (x.significand * Nat.pow 2 (x.exponent + 1074).toNat : Nat)

def le (x y : Double) : Bool := x.units ≤ y.units

/-- Both zeros become the positive one. -/
def unsigned (x : Double) : Double := if x.isZero then zero false else x

/-- The nearest number to `10 ^ n`. -/
def powerOfTen (n : Nat) : Double := (ofRatio false (Nat.pow 10 n) 1).getD (zero false)

/-- The exponent `k` with `10 ^ k ≤ num / den < 10 ^ (k + 1)`, estimated from the binary one. -/
def decimalExponent (num den : Nat) : Int :=
  let reaches (k : Int) : Bool :=
    if 0 ≤ k then den * Nat.pow 10 k.toNat ≤ num else den ≤ num * Nat.pow 10 (-k).toNat
  let guess := ((num.log2 : Int) - den.log2) * 30103 / 100000
  let candidates := [guess + 1, guess, guess - 1]
  (candidates.find? reaches).getD (guess - 2)

/-- Whether `digits · 10 ^ k` rounds to the number: it lies between the midpoints to the neighbours,
which belong to the interval where the significand is even. -/
def rounds (x : Double) (digits : Nat) (k : Int) : Bool :=
  let below : Nat := if x.significand = Nat.pow 2 52 ∧ -1074 < x.exponent then 1 else 2
  let quarter := x.exponent - 2
  let sides (m : Nat) : Nat × Nat :=
    let left := digits * Nat.pow 10 k.toNat * Nat.pow 2 (-quarter).toNat
    let right := m * Nat.pow 2 quarter.toNat * Nat.pow 10 (-k).toNat
    (left, right)
  let lower := sides (4 * x.significand - below)
  let upper := sides (4 * x.significand + 2)
  if x.significand % 2 = 0 then lower.2 ≤ lower.1 && upper.1 ≤ upper.2
  else lower.2 < lower.1 && upper.1 < upper.2

/-- The neighbours of the magnitude among the multiples of `10 ^ k`, nearer one first; of two at the
same distance the even one is first. -/
def neighbours (x : Double) (k : Int) : List Nat :=
  let num := x.significand * Nat.pow 2 x.exponent.toNat * Nat.pow 10 (-k).toNat
  let den := Nat.pow 2 (-x.exponent).toNat * Nat.pow 10 k.toNat
  let near := roundQuotient num den
  if near = num / den then [near, near + 1] else [near, near - 1]

/-- The fewest decimal digits that read back as the magnitude of a number other than zero, the
nearest such to it, as `digits · 10 ^ k`. -/
def shortest (x : Double) : Nat × Int :=
  let top := decimalExponent (x.significand * Nat.pow 2 x.exponent.toNat) (Nat.pow 2 (-x.exponent).toNat)
  let grids := (List.range 18).map fun (n : Nat) => top + 1 - n
  let hit (k : Int) : Option (Nat × Int) :=
    ((neighbours x k).find? fun digits => x.rounds digits k).map fun digits => (digits, k)
  (grids.findSome? hit).getD (0, 0)

end Double

end Conform
