import Conform.Storage

namespace Conform

inductive GlobFault where
  | wildcards
  | recursiveWildcards
  | invalidRange
  deriving DecidableEq, Repr

/-- What is wrong with a pattern of file names, and where. -/
structure GlobError where
  position : Nat
  fault : GlobFault
  deriving DecidableEq, Repr

def GlobError.message (e : GlobError) : String :=
  let text := match e.fault with
    | .wildcards => "wildcards are either regular `*` or recursive `**`"
    | .recursiveWildcards => "recursive wildcards must form a single path component"
    | .invalidRange => "invalid range pattern"
  "Pattern syntax error near position " ++ toString e.position ++ ": " ++ text

namespace Glob

inductive Token where
  | char (c : Char)
  | anyChar
  | anySequence
  | anyFolders
  | within (ranges : List (Char × Char))
  | without (ranges : List (Char × Char))
  deriving DecidableEq, Repr

/-- The ranges and single characters of a set. -/
def ranges : List Char → List (Char × Char)
  | low :: '-' :: high :: rest => (low, high) :: ranges rest
  | c :: rest => (c, c) :: ranges rest
  | [] => []

def holds (ranges : List (Char × Char)) (c : Char) : Bool :=
  ranges.any fun (low, high) => low ≤ c && c ≤ high

/-- Splits a set from what follows its closing bracket; its first character may be a bracket. -/
def splitSet : List Char → Option (List Char × List Char)
  | [] => none
  | first :: rest =>
    if ']' ∈ rest then
      some (first :: rest.takeWhile (· ≠ ']'), (rest.dropWhile (· ≠ ']')).drop 1)
    else none

/-- Reads a pattern from a position on, after a character. Each step reads a token. -/
def readTokens : (steps position : Nat) → (before : Option Char) → List Char →
    Except GlobError (List Token)
  | 0, _, _, _ => .ok []
  | steps + 1, position, before, text =>
    match text with
    | [] => .ok []
    | '?' :: rest => do return .anyChar :: (← readTokens steps (position + 1) (some '?') rest)
    | '*' :: _ =>
      let stars := (text.takeWhile (· = '*')).length
      let rest := text.dropWhile (· = '*')
      let after := position + stars
      if 2 < stars then .error ⟨position + 2, .wildcards⟩
      else if stars < 2 then do
        return .anySequence :: (← readTokens steps after (some '*') rest)
      else if position ≠ 0 ∧ before ≠ some '/' then .error ⟨position - 1, .recursiveWildcards⟩
      else
        match rest with
        | [] => .ok [.anyFolders]
        | '/' :: more => do return .anyFolders :: (← readTokens steps (after + 1) (some '/') more)
        | _ => .error ⟨after, .recursiveWildcards⟩
    | '[' :: rest =>
      let (negated, body) := match rest with
        | '!' :: body => (true, body)
        | body => (false, body)
      match splitSet body with
      | none => .error ⟨position, .invalidRange⟩
      | some (set, more) =>
        let token : Token := if negated then .without (ranges set) else .within (ranges set)
        let after := position + (text.length - more.length)
        do return token :: (← readTokens steps after (some ']') more)
    | c :: rest => do return .char c :: (← readTokens steps (position + 1) (some c) rest)

def read (pattern : String) : Except GlobError (List Token) :=
  readTokens (pattern.length + 1) 0 none pattern.toList

/-- Whether a name has the form of a pattern. -/
def accepts : List Token → List Char → Bool
  | [], name => name.isEmpty
  | .char c :: tokens, d :: name => c = d && accepts tokens name
  | .anyChar :: tokens, _ :: name => accepts tokens name
  | .within ranges :: tokens, d :: name => holds ranges d && accepts tokens name
  | .without ranges :: tokens, d :: name => !holds ranges d && accepts tokens name
  | .anySequence :: tokens, name | .anyFolders :: tokens, name => (tails name).any (accepts tokens)
  | _ :: _, [] => false
where
  tails : List Char → List (List Char)
    | [] => [[]]
    | c :: rest => (c :: rest) :: tails rest

/-- The name that a pattern without wildcards stands for. -/
def literal? (tokens : List Token) : Option String :=
  let letter? : Token → Option Char
    | .char c => some c
    | _ => none
  (tokens.mapM letter?).map String.ofList

def isRecursive (tokens : List Token) : Bool := tokens.contains .anyFolders

/-- Whether a path stands for the current folder by itself. -/
def isHere (path : String) : Bool := (Path.names path).all (· = ".")

/-- The path of a name in the folder at a path. -/
def join (path name : String) : String :=
  if path.endsWith "/" then path ++ name else path ++ "/" ++ name

/-- The path of a name in a folder; the current folder goes unmentioned. -/
def enter (path name : String) : String := if isHere path then name else join path name

/-- A spot with the path and the name that it was reached by. -/
structure Place where
  path : String
  name : String
  spot : Spot

namespace Place

def isFolder (root : Node) (here : Place) : Bool := here.spot.isFolder root

/-- The entries of a folder in the order of their names. -/
def children (root : Node) (here : Place) : List Place :=
  match here.spot.node? root with
  | some (.folder entries) =>
    (entries.filter fun (name, _) => name ≠ "").map fun (name, _) =>
      ⟨enter here.path name, name, here.spot ++ [name]⟩
  | _ => []

/-- Where a name that is no pattern leads to. -/
def enter? (root : Node) (here : Place) (name : String) : Option Place :=
  let path := enter here.path name
  if path = "" then none
  else (Spot.step root here.spot name).toOption.map fun spot => ⟨path, name, spot⟩

/-- The folder itself and the one above it match only a pattern that begins with a point. The one
above comes first. -/
def dots (root : Node) (here : Place) (component : List Token) : List Place :=
  if here.isFolder root && component.head? = some (.char '.') then
    ["..", "."].filterMap fun name =>
      if accepts component name.toList then
        (Spot.step root here.spot name).toOption.map fun spot => ⟨join here.path name, name, spot⟩
      else none
  else []

end Place

mutual
/-- The paths below a place that the components of a pattern lead to. Each step enters a
component or a folder. -/
def below (root : Node) (foldersOnly : Bool) : (steps : Nat) → List (List Token) → Place →
    List String
  | 0, _, _ => []
  | _, [], here => if foldersOnly && !here.isFolder root then [] else [here.path]
  | steps + 1, component :: rest, here =>
    match literal? component with
    | some name =>
      match here.enter? root name with
      | none => []
      | some next => below root foldersOnly steps rest next
    | none =>
      (here.dots root component).flatMap (below root foldersOnly steps rest) ++
        (here.children root).flatMap (visit root foldersOnly steps component rest)

/-- The paths that a place and those below it contribute to a component and those after it. -/
def visit (root : Node) (foldersOnly : Bool) : (steps : Nat) → (component : List Token) →
    List (List Token) → Place → List String
  | 0, _, _, _ => []
  | steps + 1, component, rest, here =>
    if isRecursive component then
      let rest := rest.dropWhile isRecursive
      let deeper := (here.children root).flatMap (visit root foldersOnly steps component rest)
      match rest with
      | [] => if here.isFolder root then here.path :: deeper else []
      | next :: others => visit root foldersOnly steps next others here ++ deeper
    else if accepts component here.name.toList then below root foldersOnly steps rest here
    else []
end

/-- The components of a pattern: a slash at its end begins no further one. -/
def components (pattern : String) : List String :=
  let parts := Path.steps pattern
  if parts.getLast? = some "" then parts.dropLast else parts

/-- The paths that match a pattern, folder by folder in the order of names. -/
def expand (root : Node) (pattern : String) : Except GlobError (List String) := do
  let _ ← read pattern
  if pattern.startsWith "/" then return []
  let components ← (components pattern).mapM read
  let steps := 2 * (components.length + 1) * (root.depth + 2)
  return below root (pattern.endsWith "/") steps components ⟨".", ".", .current⟩

/-- Whether a path is to be read as a pattern. -/
def isPattern (path : String) : Bool := path.toList.any fun c => c = '*' || c = '?' || c = '['

end Glob

end Conform
