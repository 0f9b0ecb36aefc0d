import Conform.Storage.Path

namespace Conform

namespace Node

/-- Where a path leads to. -/
def locate (root : Node) (path : String) : Except FileFault Spot :=
  match Path.fault? path with
  | some fault => .error fault
  | none => (Path.steps path).foldlM (Spot.step root) (Path.start path)

def read (root : Node) (path : String) : Except FileFault String := do
  let spot ← root.locate path
  match spot.node? root with
  | some (.file content) => return content
  | some (.folder _) => throw .isFolder
  | none => throw .missing

/-- Where a new name leads to, below the spot that the steps before it lead to. -/
def locateNew (root : Node) (start : Spot) (names : List String) :
    Except FileFault (Spot × String) :=
  match names.getLast? with
  | none => .error .missing
  | some name => do
    let above ← names.dropLast.foldlM (Spot.step root) start
    if above.isFolder root then return (above, name) else throw .notFolder

/-- Makes the folder at the end of a chain of names. -/
def makeFolder (root : Node) (start : Spot) (names : List String) : Except FileFault Node := do
  let (above, name) ← root.locateNew start names
  if name = "." ∨ name = ".." then throw .exists
  else
    match Spot.step root above name with
    | .ok _ => throw .exists
    | .error .missing => return root.put (above ++ [name]) (.folder [])
    | .error fault => throw fault

/-- Makes the folder at the end of a chain of names, given from its end, and those above it that are
missing. It may be there already. -/
def makeFolders (root : Node) (start : Spot) : (names : List String) → Except FileFault Node
  | [] => .ok root
  | name :: above =>
    let names := (name :: above).reverse
    let settle (root : Node) (fault : FileFault) : Except FileFault Node :=
      match fault, names.foldlM (Spot.step root) start with
      | .exists, .ok spot => if spot.isFolder root then .ok root else .error .exists
      | fault, _ => .error fault
    match root.makeFolder start names with
    | .ok root => .ok root
    | .error .missing => do
      let root ← makeFolders root start above
      match root.makeFolder start names with
      | .ok root => .ok root
      | .error fault => settle root fault
    | .error fault => settle root fault

/-- Where a file that is written at a path comes to lie. -/
def placeFile (root : Node) (path : String) : Except FileFault Spot :=
  match Path.fault? path with
  | some fault => .error fault
  | none =>
    match Path.names path with
    | [] => .error .isFolder
    | names => do
      let (above, name) ← root.locateNew (Path.start path) names
      if name = "." ∨ name = ".." ∨ path.endsWith "/" then throw .isFolder
      else
        match Spot.step root above name with
        | .ok spot => if spot.isFolder root then throw .isFolder else return spot
        | .error .missing => return above ++ [name]
        | .error fault => throw fault

end Node

/-- Why a file is not written: the folders above it cannot be made, or the file cannot. -/
inductive WriteFault where
  | folder (fault : FileFault)
  | file (fault : FileFault)
  deriving DecidableEq, Repr

/-- The files that a command can see, and where it may write: what is written at a path comes to lie
below the current folder, at a path from there, or elsewhere. -/
structure Storage where
  root : Node
  read : String → Except FileFault String
  write : String → Except WriteFault (Option String)

namespace Storage

/-- The nodes that can be reached from a folder that is the current one. -/
def rootOf (current : Node) : Node := .folder [("", .folder [("", current)])]

/-- Files held in memory. -/
def ofFiles (files : List (String × String)) : Storage where
  root := tree
  read := tree.read
  write path := do
    let tree ← (makeParent path).mapError .folder
    let spot ← (tree.placeFile path).mapError .file
    return spot.pathBelow?
where
  tree : Node :=
    rootOf <| files.foldl (fun root (path, content) => root.put (Path.names path) (.file content))
      (.folder [])
  makeParent (path : String) : Except FileFault Node :=
    match Path.parent? path with
    | none | some "" => .ok tree
    | some parent =>
      match Path.fault? parent with
      | some fault => .error fault
      | none => tree.makeFolders (Path.start path) (Path.components parent).reverse

end Storage

end Conform
