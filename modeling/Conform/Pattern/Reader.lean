import Conform.Pattern
import Conform.Text

namespace Conform.Pattern

def single (c : Char) : CharSet := ⟨[(c, c)], false, false⟩

def anyButNewline : CharSet := ⟨[('\n', '\n')], false, true⟩

/-- The set that a backslash and a letter stand for. -/
def escaped (c : Char) : CharSet :=
  match c with
  | 'd' => ⟨[], true, false⟩
  | 'D' => ⟨[], true, true⟩
  | 'n' => single '\n'
  | 'r' => single '\r'
  | 't' => single '\t'
  | c => single c

/-- Reads the members of a set up to the closing bracket. -/
def readSet : List Char → CharSet → Option (CharSet × List Char)
  | ']' :: rest, set => some (set, rest)
  | '\\' :: c :: rest, set =>
    readSet rest { set with
      ranges := set.ranges ++ (escaped c).ranges
      digits := set.digits || (escaped c).digits }
  | low :: '-' :: high :: rest, set =>
    if high = ']' then some ({ set with ranges := set.ranges ++ [(low, low), ('-', '-')] }, rest)
    else readSet rest { set with ranges := set.ranges ++ [(low, high)] }
  | c :: rest, set => readSet rest { set with ranges := set.ranges ++ [(c, c)] }
  | [], _ => none

def readCount (text : List Char) : Option (Nat × List Char) :=
  let digits := text.takeWhile Char.isDigit
  if digits.isEmpty then none
  else some (decimalValue digits, text.dropWhile Char.isDigit)

/-- Reads how often an atom is repeated, when that is said. -/
def readRepeat (atom : Pattern) (text : List Char) : Option (Pattern × List Char) :=
  match text with
  | '*' :: rest => some (.repeated atom 0 none, rest)
  | '+' :: rest => some (.repeated atom 1 none, rest)
  | '?' :: rest => some (.repeated atom 0 (some 1), rest)
  | '{' :: rest => do
    let (least, rest) ← readCount rest
    match rest with
    | '}' :: rest => some (.repeated atom least (some least), rest)
    | ',' :: '}' :: rest => some (.repeated atom least none, rest)
    | ',' :: rest => do
      let (most, rest) ← readCount rest
      match rest with
      | '}' :: rest => some (.repeated atom least (some most), rest)
      | _ => none
    | _ => none
  | _ => some (atom, text)

mutual
/-- Reads alternatives up to the end of the text or a closing parenthesis. -/
def readChoice : (steps : Nat) → List Char → Option (Pattern × List Char)
  | 0, _ => none
  | steps + 1, text => do
    let (first, rest) ← readSequence steps text
    match rest with
    | '|' :: rest => do
      let (second, rest) ← readChoice steps rest
      some (.choice first second, rest)
    | _ => some (first, rest)

def readSequence : (steps : Nat) → List Char → Option (Pattern × List Char)
  | 0, _ => none
  | steps + 1, text =>
    match text with
    | [] | '|' :: _ | ')' :: _ => some (.empty, text)
    | _ => do
      let (atom, rest) ← readAtom steps text
      let (first, rest) ← readRepeat atom rest
      let (second, rest) ← readSequence steps rest
      some (.sequence first second, rest)

def readAtom : (steps : Nat) → List Char → Option (Pattern × List Char)
  | 0, _ => none
  | steps + 1, text =>
    match text with
    | '^' :: rest => some (.start, rest)
    | '$' :: rest => some (.finish, rest)
    | '.' :: rest => some (.char anyButNewline, rest)
    | '\\' :: c :: rest => some (.char (escaped c), rest)
    | '[' :: '^' :: rest =>
      (readSet rest ⟨[], false, true⟩).map fun (set, rest) => (.char set, rest)
    | '[' :: rest =>
      (readSet rest ⟨[], false, false⟩).map fun (set, rest) => (.char set, rest)
    | '(' :: '?' :: ':' :: rest | '(' :: rest => do
      let (inner, rest) ← readChoice steps rest
      match rest with
      | ')' :: rest => some (inner, rest)
      | _ => none
    | c :: rest => if c ∈ ['*', '+', '?', ')', '{'] then none else some (.char (single c), rest)
    | [] => none
end

/-- Reads the text of a pattern as a whole. -/
def read? (source : String) : Option Pattern :=
  let text := source.toList
  match readChoice (3 * text.length + 3) text with
  | some (p, []) => some p
  | _ => none

end Conform.Pattern
