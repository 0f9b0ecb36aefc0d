import Conform.Storage.Node

namespace Conform

/-- Where a path leads to: the names on the way to a node from the topmost folder. The current
folder and those above it have empty names, which no step of a path has. -/
abbrev Spot := List String

namespace Spot

def current : Spot := ["", ""]

def node? (root : Node) (spot : Spot) : Option Node := root.follow? spot

def isFolder (root : Node) (spot : Spot) : Bool :=
  match spot.node? root with
  | some (.folder _) => true
  | _ => false

/-- The most bytes that a name may have. -/
def longestName : Nat := 255

/-- Follows one step from a spot. Nothing is above the topmost folder. -/
def step (root : Node) (spot : Spot) (name : String) : Except FileFault Spot :=
  match spot.node? root with
  | none => .error .missing
  | some (.file _) => .error .notFolder
  | some (.folder entries) =>
    if name = "" ∨ name = "." then .ok spot
    else if name = ".." then .ok spot.dropLast
    else if longestName < name.utf8ByteSize then .error .tooLong
    else if (Fields.get? name entries).isSome then .ok (spot ++ [name])
    else .error .missing

/-- The path from the current folder to a spot below it. -/
def pathBelow? (spot : Spot) : Option String :=
  if current.isPrefixOf spot then some ("/".intercalate (spot.drop current.length)) else none

end Spot

namespace Path

/-- The steps of a path, which stand between slashes. -/
def steps (path : String) : List String := (path.toList.splitOn '/').map String.ofList

/-- The steps of a path that are not empty. -/
def names (path : String) : List String := (steps path).filter (· ≠ "")

/-- Where the steps of a path start from. -/
def start (path : String) : Spot := if path.startsWith "/" then [] else .current

/-- The most bytes that a path may have. -/
def longest : Nat := 4095

/-- What is wrong with a path whatever it leads to. -/
def fault? (path : String) : Option FileFault :=
  if path.toList.contains '\x00' then some .zeroByte
  else if path = "" then some .missing
  else if longest < path.utf8ByteSize then some .tooLong
  else none

/-- The components of a path, without the steps that stay where they are behind the first. -/
def components (path : String) : List String :=
  match names path with
  | [] => []
  | first :: rest =>
    let others := rest.filter (· ≠ ".")
    if first = "." ∧ path.startsWith "/" then others else first :: others

/-- The path of what is above a path: empty for what lies in the current folder. -/
def parent? (path : String) : Option String :=
  match components path with
  | [] => none
  | first :: rest =>
    let top := if path.startsWith "/" then "/" else ""
    some (top ++ "/".intercalate (first :: rest).dropLast)

end Path

end Conform
