import Conform.Fields

namespace Conform

/-- Why a path cannot be read or written. -/
inductive FileFault where
  | missing
  | exists
  | notFolder
  | isFolder
  | tooLong
  | zeroByte
  | other (message : String)
  deriving DecidableEq, Repr

def FileFault.message : FileFault → String
  | missing => "No such file or directory (os error 2)"
  | «exists» => "File exists (os error 17)"
  | notFolder => "Not a directory (os error 20)"
  | isFolder => "Is a directory (os error 21)"
  | tooLong => "File name too long (os error 36)"
  | zeroByte => "file name contained an unexpected NUL byte"
  | other message => message

/-- The content of a file, or the entries of a folder in the order of their names. -/
inductive Node where
  | file (content : String)
  | folder (entries : List (String × Node))

namespace Node

def place (name : String) (node : Node) : List (String × Node) → List (String × Node)
  | [] => [(name, node)]
  | (other, old) :: rest =>
    if other = name then (name, node) :: rest
    else if other < name then (other, old) :: place name node rest
    else (name, node) :: (other, old) :: rest

/-- Puts a node at the end of a chain of names; folders on the way are made. -/
def put : Node → (names : List String) → Node → Node
  | _, [], node => node
  | .folder entries, name :: names, node =>
    .folder (place name (((Fields.get? name entries).getD (.folder [])).put names node) entries)
  | .file _, name :: names, node => .folder [(name, (Node.folder []).put names node)]

/-- The node at the end of a chain of names. -/
def follow? : (names : List String) → Node → Option Node
  | [], node => some node
  | name :: names, .folder entries => (Fields.get? name entries).bind (follow? names)
  | _ :: _, .file _ => none

mutual
def depth : Node → Nat
  | .file _ => 0
  | .folder entries => entriesDepth entries + 1

def entriesDepth : List (String × Node) → Nat
  | [] => 0
  | (_, node) :: rest => max (depth node) (entriesDepth rest)
end

end Node

end Conform
