namespace Conform

/-- A moment: whole seconds since 1970-01-01T00:00:00Z and nanoseconds. A leap second is the second
before it with a thousand million nanoseconds or more. -/
structure Instant where
  seconds : Int
  nanos : Nat
  deriving DecidableEq, Repr

/-- A day of the Gregorian calendar, extended to all years; months and days count from one. -/
structure Day where
  year : Int
  month : Nat
  day : Nat
  deriving DecidableEq, Repr

namespace Day

def isLeap (year : Int) : Bool := year % 4 = 0 && (year % 100 ≠ 0 || year % 400 = 0)

def monthLengths (leap : Bool) : List Nat :=
  [31, if leap then 29 else 28, 31, 30, 31, 30, 31, 31, 30, 31, 30, 31]

/-- Days from the first day of the year 0 to the first day of a year. -/
def beforeYear (year : Int) : Int :=
  365 * year + (year - 1) / 4 - (year - 1) / 100 + (year - 1) / 400 + 1

def isValid (d : Day) : Bool :=
  match (monthLengths (isLeap d.year))[d.month - 1]? with
  | none => false
  | some length => 1 ≤ d.month && 1 ≤ d.day && d.day ≤ length

/-- Days since 1970-01-01. -/
def number (d : Day) : Int :=
  let earlierMonths : Nat := ((monthLengths (isLeap d.year)).take (d.month - 1)).foldr (· + ·) 0
  beforeYear d.year + earlierMonths + d.day - 1 - beforeYear 1970

/-- The year that holds a day counted from the first day of the year 0. -/
def yearOf (n : Int) : Int :=
  let guess := n * 400 / 146097
  if n < beforeYear guess then guess - 1
  else if beforeYear (guess + 1) ≤ n then guess + 1
  else guess

/-- Month and day of a day of the year, which counts from zero. -/
def monthAndDay (month rest : Nat) : List Nat → Nat × Nat
  | [] => (month, rest + 1)
  | length :: lengths =>
    if rest < length then (month, rest + 1) else monthAndDay (month + 1) (rest - length) lengths

def ofNumber (n : Int) : Day :=
  let n := n + beforeYear 1970
  let year := yearOf n
  let (month, day) := monthAndDay 1 (n - beforeYear year).toNat (monthLengths (isLeap year))
  ⟨year, month, day⟩

end Day

namespace Instant

/-- The part below a millisecond is dropped. -/
def truncateToMillis (t : Instant) : Instant := { t with nanos := t.nanos / 1000000 * 1000000 }

end Instant

end Conform
