import Conform.Instant
import Conform.Text

namespace Conform.Instant

/-- Reads exactly so many decimal digits. -/
def readDigits? (count : Nat) (text : List Char) : Option (Nat × List Char) :=
  let digits := text.take count
  if digits.length = count ∧ digits.all Char.isDigit then
    some (decimalValue digits, text.drop count)
  else none

def readOneOf? (letters : List Char) : List Char → Option (List Char)
  | c :: rest => if c ∈ letters then some rest else none
  | [] => none

/-- Reads the fraction of a second, when there is one, in nanoseconds: digits after the ninth are
dropped. -/
def readFraction? (text : List Char) : Option (Nat × List Char) :=
  match text with
  | '.' :: rest =>
    let digits := rest.takeWhile Char.isDigit
    if digits.isEmpty then none
    else
      let kept := (digits ++ List.replicate 9 '0').take 9
      (readDigits? 9 kept).map fun (nanos, _) => (nanos, rest.dropWhile Char.isDigit)
  | _ => some (0, text)

/-- Reads the distance from UTC in minutes, less than a day either way. -/
def readOffset? : List Char → Option (Int × List Char)
  | 'Z' :: rest | 'z' :: rest => some (0, rest)
  | sign :: rest => do
    guard (sign ∈ ['+', '-', '−'])
    let (hours, rest) ← readDigits? 2 rest
    let rest ← readOneOf? [':'] rest
    let (minutes, rest) ← readDigits? 2 rest
    guard (hours < 24 ∧ minutes < 60)
    let distance : Int := 60 * hours + minutes
    return (if sign = '+' then distance else -distance, rest)
  | [] => none

/-- Reads a timestamp of RFC 3339, such as `2019-12-02T04:03:06+02:00`. -/
def read? (text : String) : Option Instant := do
  let (year, rest) ← readDigits? 4 text.toList
  let rest ← readOneOf? ['-'] rest
  let (month, rest) ← readDigits? 2 rest
  let rest ← readOneOf? ['-'] rest
  let (day, rest) ← readDigits? 2 rest
  let rest ← readOneOf? ['T', 't', ' '] rest
  let (hour, rest) ← readDigits? 2 rest
  let rest ← readOneOf? [':'] rest
  let (minute, rest) ← readDigits? 2 rest
  let rest ← readOneOf? [':'] rest
  let (second, rest) ← readDigits? 2 rest
  let (nanos, rest) ← readFraction? rest
  let (offset, rest) ← readOffset? rest
  guard rest.isEmpty
  let date : Day := ⟨year, month, day⟩
  guard (date.isValid ∧ hour < 24 ∧ minute < 60 ∧ second ≤ 60)
  let wall := 86400 * date.number + 3600 * hour + 60 * minute + (min second 59 : Nat)
  return ⟨wall - 60 * offset, if second = 60 then nanos + 1000000000 else nanos⟩

/-- Decimal digits with zeros in front up to a width. -/
def padded (width n : Nat) : List Char :=
  let digits := Nat.toDigits 10 n
  List.replicate (width - digits.length) '0' ++ digits

/-- A year outside 0 to 9999 has a sign. -/
def renderYear (year : Int) : List Char :=
  if 0 ≤ year ∧ year ≤ 9999 then padded 4 year.toNat
  else (if year < 0 then '-' else '+') :: padded 4 year.natAbs

/-- The timestamp in UTC to the millisecond. -/
def render (t : Instant) : String :=
  let date := Day.ofNumber (t.seconds / 86400)
  let clock := (t.seconds % 86400).toNat
  let leap := if t.nanos < 1000000000 then 0 else 1
  String.ofList (renderYear date.year ++ '-' :: padded 2 date.month ++ '-' :: padded 2 date.day ++
    'T' :: padded 2 (clock / 3600) ++ ':' :: padded 2 (clock / 60 % 60) ++
    ':' :: padded 2 (clock % 60 + leap) ++
    '.' :: padded 3 (t.nanos % 1000000000 / 1000000) ++ ['Z'])

end Conform.Instant
