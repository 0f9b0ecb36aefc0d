import Conform.Filter
import Conform.Text

namespace Conform.Filter

inductive Token where
  | name (text : String)
  | variable (name : String)
  | field (name : String)
  | number (text : String)
  | text (value : String)
  | mark (text : String)
  deriving DecidableEq, Repr

def isNameStart (c : Char) : Bool := c.isAlpha || c = '_'

def isNamePart (c : Char) : Bool := c.isAlphanum || c = '_'

/-- Splits digits from what follows them; there is one at least. -/
def splitDigits (text : List Char) : Option (List Char × List Char) :=
  let digits := text.takeWhile Char.isDigit
  if digits.isEmpty then none else some (digits, text.dropWhile Char.isDigit)

/-- Splits the digits, the fraction and the exponent of a numeral from what follows. A point or a
mark of an exponent needs its digits. -/
def splitNumeral (text : List Char) : Option (List Char × List Char) := do
  let (whole, rest) ← splitDigits text
  let (fraction, rest) ← match rest with
    | '.' :: more => do
      let (digits, rest) ← splitDigits more
      pure ('.' :: digits, rest)
    | _ => pure ([], rest)
  let (exponent, rest) ← match rest with
    | mark :: more =>
      if mark = 'e' ∨ mark = 'E' then do
        let (sign, unsigned) := match more with
          | '+' :: digits => (['+'], digits)
          | '-' :: digits => (['-'], digits)
          | digits => ([], digits)
        let (digits, rest) ← splitDigits unsigned
        pure (mark :: sign ++ digits, rest)
      else pure ([], rest)
    | [] => pure ([], rest)
  return (whole ++ fraction ++ exponent, rest)

/-- The characters that are tokens of their own. -/
def marks : List Char := ['.', '[', ']', '(', ')', '\x7b', '\x7d', ',', ':', ';', '?']

/-- The characters of operators; those that stand together are one operator. -/
def operatorMarks : List Char := ['|', '=', '!', '<', '>', '+', '-', '*', '/', '%']

/-- The character that four hexadecimal digits stand for, unless it is half of one. -/
def unit? (digits : List Char) : Option Char := do
  let values ← digits.mapM Json.Reader.hexValue?
  let n := values.foldl (fun n value => n * 16 + value) 0
  if 0xD800 ≤ n ∧ n ≤ 0xDFFF then none else some (Char.ofNat n)

/-- The character that a character after a backslash stands for. -/
def escaped? : Char → Option Char
  | '"' => some '"'
  | '\\' => some '\\'
  | '/' => some '/'
  | 'b' => some '\x08'
  | 'f' => some '\x0c'
  | 'n' => some '\n'
  | 'r' => some '\r'
  | 't' => some '\t'
  | _ => none

/-- Splits a text from what follows its closing quote. -/
def splitText : List Char → Option (List Char × List Char)
  | [] => none
  | '"' :: rest => some ([], rest)
  | '\\' :: 'u' :: a :: b :: c :: d :: rest => do
    let first ← unit? [a, b, c, d]
    let (others, rest) ← splitText rest
    return (first :: others, rest)
  | '\\' :: c :: rest => do
    let first ← escaped? c
    let (others, rest) ← splitText rest
    return (first :: others, rest)
  | c :: rest => do
    let (others, rest) ← splitText rest
    return (c :: others, rest)

/-- What follows a comment. It ends with its line, unless a backslash that is not itself escaped
stands before the line break. -/
def afterComment : (escaped : Bool) → List Char → List Char
  | _, [] => []
  | escaped, '\r' :: '\n' :: rest => if escaped then afterComment false rest else rest
  | escaped, '\n' :: rest => if escaped then afterComment false rest else rest
  | escaped, '\\' :: rest => afterComment (!escaped) rest
  | _, _ :: rest => afterComment false rest

/-- Splits the text of a filter into tokens; each step reads one. -/
def tokens? : (steps : Nat) → List Char → Option (List Token)
  | 0, _ => none
  | steps + 1, text =>
    match text with
    | [] => some []
    | '#' :: rest => tokens? steps (afterComment false rest)
    | '"' :: rest =>
      match splitText rest with
      | some (value, rest) => (tokens? steps rest).map (.text (String.ofList value) :: ·)
      | none => none
    | '.' :: '.' :: rest => (tokens? steps rest).map (.mark ".." :: ·)
    | '$' :: c :: rest =>
      if isNameStart c then
        let name := String.ofList (c :: rest.takeWhile isNamePart)
        (tokens? steps (rest.dropWhile isNamePart)).map (.variable name :: ·)
      else none
    | '.' :: c :: rest =>
      if isNameStart c then
        let name := String.ofList (c :: rest.takeWhile isNamePart)
        (tokens? steps (rest.dropWhile isNamePart)).map (.field name :: ·)
      else (tokens? steps (c :: rest)).map (.mark "." :: ·)
    | c :: rest =>
      if isWhite c then tokens? steps rest
      else if c.isDigit then do
        let (numeral, rest) ← splitNumeral text
        (tokens? steps rest).map (.number (String.ofList numeral) :: ·)
      else if isNameStart c then
        let name := String.ofList (text.takeWhile isNamePart)
        (tokens? steps (text.dropWhile isNamePart)).map (.name name :: ·)
      else if c ∈ operatorMarks then
        let operator := String.ofList (text.takeWhile (· ∈ operatorMarks))
        (tokens? steps (text.dropWhile (· ∈ operatorMarks))).map (.mark operator :: ·)
      else if c ∈ marks then
        (tokens? steps rest).map (.mark (String.singleton c) :: ·)
      else none

/-- The value of a numeral: an integer of 64 bits, or its text. -/
def numeral (text : String) : Value :=
  match text.toNat? with
  | some n => if n < Nat.pow 2 63 then .int n else .decimal text
  | none => .decimal text

/-- The operators that test for sameness. -/
def equality? : Token → Option Comparison
  | .mark "==" => some .equal
  | .mark "!=" => some .notEqual
  | _ => none

/-- The operators that compare by order; they bind closer than those for sameness. -/
def order? : Token → Option Comparison
  | .mark "<" => some .less
  | .mark "<=" => some .lessOrEqual
  | .mark ">" => some .greater
  | .mark ">=" => some .greaterOrEqual
  | _ => none

def constant? : String → Option Value
  | "null" => some .null
  | "true" => some (.bool true)
  | "false" => some (.bool false)
  | _ => none

/-- The words that are no names of calls. -/
def keywords : List String :=
  ["and", "as", "break", "catch", "def", "elif", "else", "end", "foreach", "if", "import",
    "include", "label", "or", "reduce", "then", "try"]

/-- Whether question marks come first, and what follows them. -/
def splitOptional (tokens : List Token) : Bool × List Token :=
  (tokens.head? = some (.mark "?"), tokens.dropWhile (· = .mark "?"))

/-- The key that a token in an object stands for. -/
def key? : Token → Option Filter
  | .name key | .text key => some (.constant (.str key))
  | .variable name => some (.variable name)
  | _ => none

/-- The entry that a token alone in an object stands for: the field or the variable of its name. -/
def shorthand? : Token → Option (Filter × Filter)
  | .name key | .text key =>
    let name := Filter.constant (.str key)
    some (name, .path .identity [.index name false])
  | .variable name => some (.constant (.str name), .variable name)
  | _ => none

abbrev Parsed := Option (Filter × List Token)

mutual
/-- Reads filters joined by bars. -/
def readPipe : (steps : Nat) → (commas : Bool) → List Token → Parsed
  | 0, _, _ => none
  | steps + 1, commas, tokens =>
    match readComma steps commas tokens with
    | some (first, .mark "|" :: rest) =>
      (readPipe steps commas rest).map fun (second, rest) => (.pipe first second, rest)
    | parsed => parsed

/-- Reads filters joined by commas, where they are allowed. -/
def readComma : (steps : Nat) → (commas : Bool) → List Token → Parsed
  | 0, _, _ => none
  | steps + 1, commas, tokens =>
    match readEquality steps tokens with
    | some (first, .mark "," :: rest) =>
      if commas then
        (readComma steps commas rest).map fun (second, rest) => (.both first second, rest)
      else some (first, .mark "," :: rest)
    | parsed => parsed

def readEquality : (steps : Nat) → List Token → Parsed
  | 0, _ => none
  | steps + 1, tokens =>
    match readOrder steps tokens with
    | some (first, rest) => readEqualities steps first rest
    | none => none

/-- Goes on with the further tests for sameness from the left. -/
def readEqualities : (steps : Nat) → Filter → List Token → Parsed
  | 0, _, _ => none
  | steps + 1, left, tokens =>
    match tokens with
    | [] => some (left, [])
    | mark :: rest =>
      match equality? mark with
      | none => some (left, tokens)
      | some comparison =>
        match readOrder steps rest with
        | some (right, rest) => readEqualities steps (.compare comparison left right) rest
        | none => none

def readOrder : (steps : Nat) → List Token → Parsed
  | 0, _ => none
  | steps + 1, tokens =>
    match readSum steps tokens with
    | some (first, rest) => readOrders steps first rest
    | none => none

/-- Goes on with the further comparisons by order from the left. -/
def readOrders : (steps : Nat) → Filter → List Token → Parsed
  | 0, _, _ => none
  | steps + 1, left, tokens =>
    match tokens with
    | [] => some (left, [])
    | mark :: rest =>
      match order? mark with
      | none => some (left, tokens)
      | some comparison =>
        match readSum steps rest with
        | some (right, rest) => readOrders steps (.compare comparison left right) rest
        | none => none

def readSum : (steps : Nat) → List Token → Parsed
  | 0, _ => none
  | steps + 1, tokens =>
    match readTerm steps tokens with
    | some (first, rest) => readSummands steps first rest
    | none => none

/-- Adds the further summands to a sum from the left. -/
def readSummands : (steps : Nat) → Filter → List Token → Parsed
  | 0, _, _ => none
  | steps + 1, sum, tokens =>
    match tokens with
    | .mark "+" :: rest =>
      match readTerm steps rest with
      | some (next, rest) => readSummands steps (.add sum next) rest
      | none => none
    | _ => some (sum, tokens)

def readTerm : (steps : Nat) → List Token → Parsed
  | 0, _ => none
  | steps + 1, tokens =>
    match tokens with
    | .mark "-" :: rest => (readTerm steps rest).map fun (body, rest) => (.negate body, rest)
    | .mark "." :: .text _ :: _ | .field _ :: _ => readPath steps .identity tokens
    | .mark "." :: rest => readPostfix steps .identity rest
    | .number text :: rest => readPostfix steps (.constant (numeral text)) rest
    | .text value :: rest => readPostfix steps (.constant (.str value)) rest
    | .variable name :: rest => readPostfix steps (.variable name) rest
    | .mark "[" :: .mark "]" :: rest => readPostfix steps (.constant (.arr [])) rest
    | .mark "[" :: rest =>
      match readPipe steps true rest with
      | some (body, .mark "]" :: rest) => readPostfix steps (.collect body) rest
      | _ => none
    | .mark "(" :: rest =>
      match readPipe steps true rest with
      | some (body, .mark ")" :: rest) => readPostfix steps body rest
      | _ => none
    | .mark "\x7b" :: .mark "\x7d" :: rest => readPostfix steps (.constant (.obj [])) rest
    | .mark "\x7b" :: rest =>
      match readEntries steps rest [] with
      | some (body, rest) => readPostfix steps body rest
      | none => none
    | .name name :: .mark "(" :: rest =>
      if name ∈ keywords then none
      else
        match readArguments steps rest [] with
        | some (arguments, rest) => readPostfix steps (.call name arguments) rest
        | none => none
    | .name name :: rest =>
      if name ∈ keywords then none
      else readPostfix steps (((constant? name).map .constant).getD (.call name [])) rest
    | _ => none

/-- Reads the question marks and the path that follow a term. -/
def readPostfix : (steps : Nat) → Filter → List Token → Parsed
  | 0, _, _ => none
  | steps + 1, term, tokens =>
    let (optional, rest) := splitOptional tokens
    readPath steps (if optional then .attempt term else term) rest

/-- Reads the path that starts at a base. -/
def readPath : (steps : Nat) → Filter → List Token → Parsed
  | 0, _, _ => none
  | steps + 1, base, tokens =>
    match readSteps steps tokens with
    | some ([], rest) => some (base, rest)
    | some (found, rest) => some (.path base found, rest)
    | none => none

/-- Reads the steps of a path. -/
def readSteps : (steps : Nat) → List Token → Option (List PathStep × List Token)
  | 0, _ => none
  | steps + 1, tokens =>
    match tokens with
    | .field key :: rest | .mark "." :: .text key :: rest =>
      let (optional, rest) := splitOptional rest
      (readSteps steps rest).map fun (others, rest) =>
        (.index (.constant (.str key)) optional :: others, rest)
    | .mark "[" :: rest =>
      match readBracket steps rest with
      | some (step, rest) =>
        let (optional, rest) := splitOptional rest
        (readSteps steps rest).map fun (others, rest) => (step optional :: others, rest)
      | none => none
    | _ => some ([], tokens)

/-- Reads a step up to the closing bracket. -/
def readBracket : (steps : Nat) → List Token → Option ((Bool → PathStep) × List Token)
  | 0, _ => none
  | steps + 1, tokens =>
    match tokens with
    | .mark "]" :: rest => some (.each, rest)
    | .mark ":" :: rest =>
      match readPipe steps true rest with
      | some (high, .mark "]" :: rest) => some (.till high, rest)
      | _ => none
    | _ =>
      match readPipe steps true tokens with
      | some (key, .mark "]" :: rest) => some (.index key, rest)
      | some (low, .mark ":" :: .mark "]" :: rest) => some (.since low, rest)
      | some (low, .mark ":" :: rest) =>
        match readPipe steps true rest with
        | some (high, .mark "]" :: rest) => some (.between low high, rest)
        | _ => none
      | _ => none

/-- Reads the arguments of a call up to the closing parenthesis. -/
def readArguments : (steps : Nat) → List Token → List Filter →
    Option (List Filter × List Token)
  | 0, _, _ => none
  | steps + 1, tokens, done =>
    match readPipe steps true tokens with
    | some (argument, .mark ";" :: rest) => readArguments steps rest (done ++ [argument])
    | some (argument, .mark ")" :: rest) => some (done ++ [argument], rest)
    | _ => none

/-- Reads the entries of an object up to the closing brace. A key alone stands for the field of
that name. -/
def readEntries : (steps : Nat) → List Token → List (Filter × Filter) → Parsed
  | 0, _, _ => none
  | steps + 1, tokens, done =>
    match tokens with
    | .mark "(" :: rest =>
      match readPipe steps true rest with
      | some (key, .mark ")" :: .mark ":" :: rest) =>
        match readPipe steps false rest with
        | some (body, rest) => readNext steps (done ++ [(key, body)]) rest
        | none => none
      | _ => none
    | token :: .mark ":" :: rest =>
      match key? token with
      | none => none
      | some key =>
        match readPipe steps false rest with
        | some (body, rest) => readNext steps (done ++ [(key, body)]) rest
        | none => none
    | token :: rest =>
      match shorthand? token with
      | some entry => readNext steps (done ++ [entry]) rest
      | none => none
    | [] => none

def readNext : (steps : Nat) → List (Filter × Filter) → List Token → Parsed
  | 0, _, _ => none
  | steps + 1, done, tokens =>
    match tokens with
    | .mark "," :: .mark "\x7d" :: rest => some (.object done, rest)
    | .mark "," :: rest => readEntries steps rest done
    | .mark "\x7d" :: rest => some (.object done, rest)
    | _ => none
end

/-- Reads the text of a filter as a whole. -/
def read? (source : String) : Option Filter := do
  let text := source.toList
  let tokens ← tokens? (text.length + 1) text
  match readPipe (16 * tokens.length + 16) true tokens with
  | some (filter, []) => some filter
  | _ => none

end Conform.Filter
