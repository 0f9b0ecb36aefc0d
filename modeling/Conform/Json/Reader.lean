import Conform.Json

namespace Conform

/-- What is wrong with a text that is no JSON. -/
inductive SyntaxFault where
  | endInList
  | endInObject
  | endInString
  | endInValue
  | expectedColon
  | expectedCommaOrListEnd
  | expectedCommaOrObjectEnd
  | expectedLiteral
  | expectedValue
  | invalidEscape
  | invalidNumber
  | numberOutOfRange
  | controlCharacter
  | keyNotString
  | loneSurrogate
  | trailingComma
  | trailingCharacters
  | unfinishedSurrogatePair
  | tooDeep
  deriving DecidableEq, Repr

def SyntaxFault.message : SyntaxFault → String
  | .endInList => "EOF while parsing a list"
  | .endInObject => "EOF while parsing an object"
  | .endInString => "EOF while parsing a string"
  | .endInValue => "EOF while parsing a value"
  | .expectedColon => "expected `:`"
  | .expectedCommaOrListEnd => "expected `,` or `]`"
  | .expectedCommaOrObjectEnd => "expected `,` or `\x7d`"
  | .expectedLiteral => "expected ident"
  | .expectedValue => "expected value"
  | .invalidEscape => "invalid escape"
  | .invalidNumber => "invalid number"
  | .numberOutOfRange => "number out of range"
  | .controlCharacter => "control character (\\u0000-\\u001F) found while parsing a string"
  | .keyNotString => "key must be a string"
  | .loneSurrogate => "lone leading surrogate in hex escape"
  | .trailingComma => "trailing comma"
  | .trailingCharacters => "trailing characters"
  | .unfinishedSurrogatePair => "unexpected end of hex escape"
  | .tooDeep => "recursion limit exceeded"

/-- A fault and the place it is reported at, in bytes. -/
structure SyntaxFailure where
  fault : SyntaxFault
  line : Nat
  column : Nat
  deriving DecidableEq, Repr

def SyntaxFailure.message (failure : SyntaxFailure) : String :=
  failure.fault.message ++ " at line " ++ toString failure.line ++
    " column " ++ toString failure.column

namespace Json.Reader

/-- A fault met while reading, with the number of bytes that follow its place. -/
structure Stop where
  fault : SyntaxFault
  left : Nat

def byteCount (text : List Char) : Nat := text.foldl (fun n c => n + c.utf8Size) 0

/-- Stops with the place a number of bytes into the text that is left, at its end at most. -/
def stop {α : Type} (fault : SyntaxFault) (text : List Char) (ahead : Nat) : Except Stop α :=
  .error ⟨fault, byteCount text - ahead⟩

def isBlank (c : Char) : Bool := c = ' ' || c = '\n' || c = '\t' || c = '\r'

def skipBlanks (text : List Char) : List Char := text.dropWhile isBlank

/-- Adds digits to a significand while it stays below `2 ^ 64`; what is not added is left over. -/
def absorb (significand : Nat) : List Char → Nat × List Char
  | [] => (significand, [])
  | d :: rest =>
    let next := significand * 10 + digitValue d
    if next < Nat.pow 2 64 then absorb next rest else (significand, d :: rest)

/-- Scales by a power of ten, one rounding for each factor of at most `10 ^ 308`. -/
def scaleByTen (x : Double) (exponent : Int) : Option Double :=
  if exponent.natAbs ≤ 308 then
    if 0 ≤ exponent then x.mul? (Double.powerOfTen exponent.toNat)
    else x.div? (Double.powerOfTen (-exponent).toNat)
  else if x.isZero then some x
  else if 0 ≤ exponent then none
  else (x.div? (Double.powerOfTen 308)).bind fun y => scaleByTen y (exponent + 308)
termination_by (-exponent).toNat

def float (negative : Bool) (significand : Nat) (exponent : Int) (text : List Char) :
    Except Stop (Number × List Char) :=
  match (Double.ofInt? significand).bind fun x => scaleByTen x exponent with
  | none => stop .numberOutOfRange text 0
  | some x => .ok (.float (x.withSign negative), text)

/-- The value of digits while it is below `2 ^ 31`, else the digits after the one exceeding it. -/
def exponentValue (value : Nat) : List Char → Except (List Char) Nat
  | [] => .ok value
  | d :: rest =>
    let next := value * 10 + digitValue d
    if next < Nat.pow 2 31 then exponentValue next rest else .error rest

/-- Reads what follows the letter of an exponent. -/
def readExponent (negative : Bool) (significand : Nat) (start : Int) (text : List Char) :
    Except Stop (Number × List Char) :=
  let (falling, text) := match text with
    | '+' :: rest => (false, rest)
    | '-' :: rest => (true, rest)
    | _ => (false, text)
  let digits := text.takeWhile Char.isDigit
  let rest := text.dropWhile Char.isDigit
  if digits.isEmpty then
    if text.isEmpty then stop .endInValue text 0 else stop .invalidNumber text 1
  else
    match exponentValue 0 digits with
    | .ok n =>
      let exponent := if falling then start - n else start + n
      float negative significand (max (min exponent (Int.pow 2 31 - 1)) (-Int.pow 2 31)) rest
    | .error unread =>
      if significand ≠ 0 ∧ ¬falling then stop .numberOutOfRange (unread ++ rest) 0
      else .ok (.float (Double.zero negative), rest)

/-- Reads what follows the point of a number whose integer part stands for
`significand · 10 ^ start`. -/
def readFraction (negative : Bool) (significand : Nat) (start : Int) (text : List Char) :
    Except Stop (Number × List Char) :=
  let digits := text.takeWhile Char.isDigit
  let rest := text.dropWhile Char.isDigit
  if digits.isEmpty then
    if text.isEmpty then stop .endInValue text 1 else stop .invalidNumber text 1
  else
    let (significand, unread) := absorb significand digits
    let exponent := start - (digits.length - unread.length)
    match rest with
    | 'e' :: more | 'E' :: more => readExponent negative significand exponent more
    | _ => float negative significand exponent rest

/-- Reads a number after its sign: an integer where 64 bits hold it, else a double. -/
def readNumber (negative : Bool) (text : List Char) : Except Stop (Number × List Char) :=
  let digits := text.takeWhile Char.isDigit
  let rest := text.dropWhile Char.isDigit
  match digits with
  | [] => if text.isEmpty then stop .endInValue text 0 else stop .invalidNumber text 1
  | '0' :: _ :: _ => stop .invalidNumber text 2
  | _ =>
    let (significand, unread) := absorb 0 digits
    let start : Int := unread.length
    match rest with
    | '.' :: more => readFraction negative significand start more
    | 'e' :: more | 'E' :: more => readExponent negative significand start more
    | _ =>
      if ¬unread.isEmpty then float negative significand start rest
      else if ¬negative then .ok (.int significand, rest)
      else if 0 < significand ∧ significand ≤ Nat.pow 2 63 then .ok (.int (-significand), rest)
      else float true significand 0 rest

def hexValue? (c : Char) : Option Nat :=
  if c.isDigit then some (digitValue c)
  else if 'a' ≤ c ∧ c ≤ 'f' then some (c.toNat - 'a'.toNat + 10)
  else if 'A' ≤ c ∧ c ≤ 'F' then some (c.toNat - 'A'.toNat + 10)
  else none

/-- Reads four hexadecimal digits. -/
def readUnit (text : List Char) : Except Stop (Nat × List Char) :=
  if byteCount text < 4 then stop .endInString [] 0
  else
    match (text.take 4).mapM hexValue? with
    | none => stop .invalidEscape text 4
    | some digits => .ok (digits.foldl (fun n d => n * 16 + d) 0, text.drop 4)

/-- Reads the character that a `\u` escape stands for, which takes a second one beyond the basic
plane. -/
def readUnicode (text : List Char) : Except Stop (Char × List Char) := do
  let (unit, rest) ← readUnit text
  if 0xDC00 ≤ unit ∧ unit ≤ 0xDFFF then stop .loneSurrogate rest 0
  else if 0xD800 ≤ unit ∧ unit ≤ 0xDBFF then
    match rest with
    | '\\' :: 'u' :: more =>
      let (low, rest) ← readUnit more
      if low < 0xDC00 ∨ 0xDFFF < low then stop .loneSurrogate rest 0
      else .ok (Char.ofNat (0x10000 + (unit - 0xD800) * 0x400 + (low - 0xDC00)), rest)
    | [] | ['\\'] => stop .endInString [] 0
    | '\\' :: other => stop .unfinishedSurrogatePair other 1
    | other => stop .unfinishedSurrogatePair other 1
  else .ok (Char.ofNat unit, rest)

/-- Reads what follows a backslash. -/
def readEscape (text : List Char) : Except Stop (Char × List Char) :=
  match text with
  | [] => stop .endInString [] 0
  | '"' :: rest => .ok ('"', rest)
  | '\\' :: rest => .ok ('\\', rest)
  | '/' :: rest => .ok ('/', rest)
  | 'b' :: rest => .ok ('\x08', rest)
  | 'f' :: rest => .ok ('\x0c', rest)
  | 'n' :: rest => .ok ('\n', rest)
  | 'r' :: rest => .ok ('\r', rest)
  | 't' :: rest => .ok ('\t', rest)
  | 'u' :: rest => readUnicode rest
  | other => stop .invalidEscape other 1

/-- Reads what follows the opening quote of a string; each step reads a character. -/
def readString : (steps : Nat) → (text done : List Char) → Except Stop (String × List Char)
  | 0, text, _ => stop .endInString text 0
  | steps + 1, text, done =>
    match text with
    | [] => stop .endInString [] 0
    | '"' :: rest => .ok (String.ofList done.reverse, rest)
    | '\\' :: rest => do
      let (c, rest) ← readEscape rest
      readString steps rest (c :: done)
    | c :: rest =>
      if c.toNat < 32 then stop .controlCharacter text 1 else readString steps rest (c :: done)

/-- Reads the rest of a literal letter by letter. -/
def readLiteral (value : Json) : (letters text : List Char) → Except Stop (Json × List Char)
  | [], text => .ok (value, text)
  | _ :: _, [] => stop .endInValue [] 0
  | letter :: letters, c :: rest =>
    if c = letter then readLiteral value letters rest else stop .expectedLiteral (c :: rest) 1

mutual
/-- Reads a value, which may hold values nested below a depth. Each step reads a character. -/
def readValue : (steps depth : Nat) → (text : List Char) → Except Stop (Json × List Char)
  | 0, _, text => stop .endInValue text 0
  | steps + 1, depth, text =>
    let text := skipBlanks text
    match text with
    | [] => stop .endInValue [] 1
    | 'n' :: rest => readLiteral .null ['u', 'l', 'l'] rest
    | 't' :: rest => readLiteral (.bool true) ['r', 'u', 'e'] rest
    | 'f' :: rest => readLiteral (.bool false) ['a', 'l', 's', 'e'] rest
    | '-' :: rest => do
      let (n, rest) ← readNumber true rest
      return (.num n, rest)
    | '"' :: rest => do
      let (s, rest) ← readString (rest.length + 1) rest []
      return (.str s, rest)
    | '[' :: rest =>
      if depth ≤ 1 then stop .tooDeep text 1 else readItems steps (depth - 1) rest []
    | '{' :: rest =>
      if depth ≤ 1 then stop .tooDeep text 1 else readFields steps (depth - 1) rest []
    | c :: _ =>
      if c.isDigit then do
        let (n, rest) ← readNumber false text
        return (.num n, rest)
      else stop .expectedValue text 1

/-- Reads the items of a list up to its end. -/
def readItems : (steps depth : Nat) → (text : List Char) → (done : List Json) →
    Except Stop (Json × List Char)
  | 0, _, text, _ => stop .endInList text 0
  | steps + 1, depth, text, done =>
    let text := skipBlanks text
    match text, done with
    | [], _ => stop .endInList [] 1
    | ']' :: rest, _ => .ok (.arr done.reverse, rest)
    | _, [] => do
      let (item, rest) ← readValue steps depth text
      readItems steps depth rest [item]
    | ',' :: rest, _ =>
      match skipBlanks rest with
      | [] => stop .endInValue [] 1
      | ']' :: more => stop .trailingComma (']' :: more) 1
      | next => do
        let (item, rest) ← readValue steps depth next
        readItems steps depth rest (item :: done)
    | _, _ => stop .expectedCommaOrListEnd text 1

/-- Reads the fields of an object up to its end. -/
def readFields : (steps depth : Nat) → (text : List Char) → (done : List (String × Json)) →
    Except Stop (Json × List Char)
  | 0, _, text, _ => stop .endInObject text 0
  | steps + 1, depth, text, done =>
    let text := skipBlanks text
    match text, done with
    | [], _ => stop .endInObject [] 1
    | '}' :: rest, _ => .ok (.obj (Fields.merge done.reverse), rest)
    | '"' :: rest, [] => readField steps depth rest []
    | _, [] => stop .keyNotString text 1
    | ',' :: rest, _ =>
      match skipBlanks rest with
      | [] => stop .endInValue [] 1
      | '"' :: more => readField steps depth more done
      | '}' :: more => stop .trailingComma ('}' :: more) 1
      | next => stop .keyNotString next 1
    | _, _ => stop .expectedCommaOrObjectEnd text 1

/-- Reads a field after the opening quote of its key, and the fields after it. -/
def readField : (steps depth : Nat) → (text : List Char) → (done : List (String × Json)) →
    Except Stop (Json × List Char)
  | 0, _, text, _ => stop .endInString text 0
  | steps + 1, depth, text, done => do
    let (key, rest) ← readString (text.length + 1) text []
    match skipBlanks rest with
    | [] => stop .endInObject [] 1
    | ':' :: rest =>
      let (value, rest) ← readValue steps depth rest
      readFields steps depth rest ((key, value) :: done)
    | other => stop .expectedColon other 1
end

/-- Line and column after a number of bytes, counted from the last line break. -/
def place (line column : Nat) : (text : List Char) → (bytes : Nat) → Nat × Nat
  | [], _ => (line, column)
  | c :: rest, bytes =>
    if bytes < c.utf8Size then (line, column + bytes)
    else if c = '\n' then place (line + 1) 0 rest (bytes - 1)
    else place line (column + c.utf8Size) rest (bytes - c.utf8Size)

def finish : Json × List Char → Except Stop Json
  | (value, rest) =>
    match skipBlanks rest with
    | [] => .ok value
    | more => stop .trailingCharacters more 1

end Json.Reader

open Json.Reader in
/-- Reads a text that holds one value, nested 127 levels deep at most. -/
def Json.read (source : String) : Except SyntaxFailure Json :=
  let text := source.toList
  match readValue (3 * text.length + 3) 128 text >>= finish with
  | .ok value => .ok value
  | .error failure =>
    let (line, column) := place 1 0 text (byteCount text - failure.left)
    .error ⟨failure.fault, line, column⟩

end Conform
