import Conform.CommandLine.Run

namespace Conform.Program

open CommandLine

/-- What a directory entry leads to, without the contents of files. -/
partial def walk (entry : IO.FS.DirEntry) : IO Node := do
  if ← entry.path.isDir then
    let mut nodes := []
    for inner in ← entry.path.readDir do
      nodes := Node.place inner.fileName (← walk inner) nodes
    return .folder nodes
  else return .file ""

/-- The current folder. -/
def currentFolder : IO Node := do
  let mut nodes := []
  for entry in ← (← IO.currentDir).readDir do
    nodes := Node.place entry.fileName (← walk entry) nodes
  return .folder nodes

def faultOf (e : IO.Error) : FileFault :=
  match e with
  | .noFileOrDirectory .. => .missing
  | e => .other (toString e)

def attempt {α : Type} (action : IO α) : IO (Except FileFault α) := do
  try return .ok (← action)
  catch e => return .error (faultOf e)

/-- The contents of the files that a command reads. -/
def readAll (paths : List String) : IO (List (String × Except FileFault String)) :=
  paths.mapM fun (path : String) => return (path, ← attempt (IO.FS.readFile path))

/-- The storage that a command sees: the current folder and the files that it reads. -/
def storageFor (command : Command) : IO Storage := do
  let folder ← if command.patterns.any Glob.isPattern then currentFolder else pure (.folder [])
  let root := Storage.rootOf folder
  let paths := command.patterns.flatMap fun pattern =>
    ((expandPaths root [pattern]).toOption).getD []
  let contents ← readAll paths
  return {
    root
    read := fun path => (Fields.get? path contents).getD (.error .missing)
    write := fun path => .ok (some path) }

/-- Writes the file of an outcome and gives the error that comes of it. -/
def write (path text : String) : IO (Option CommandError) := do
  let folder ← match Path.parent? path with
    | some parent => if parent = "" then pure (.ok ()) else attempt (IO.FS.createDirAll parent)
    | none => pure (.ok ())
  match folder with
  | .error fault => return some (.noFolder fault)
  | .ok () =>
    match ← attempt (IO.FS.writeFile path text) with
    | .error fault => return some (.unwritable path fault)
    | .ok () => return none

def complain (e : CommandError) : IO Unit := do
  match e.chain with
  | [] => return
  | first :: causes =>
    IO.eprintln ("Error: " ++ first)
    for cause in causes do
      IO.eprintln ("  caused by: " ++ cause)

def execute (command : Command) : IO UInt32 := do
  let outcome := command.run (← storageFor command)
  IO.eprint outcome.log
  let unwritten ← match outcome.written with
    | some (path, text) => write path text
    | none => pure none
  IO.print outcome.out
  match unwritten.or outcome.failure with
  | none => return 0
  | some e =>
    complain e
    return 1

end Conform.Program

def main (arguments : List String) : IO UInt32 := do
  match Conform.CommandLine.Command.read arguments with
  | .ok command => Conform.Program.execute command
  | .error fault =>
    IO.eprintln ("error: " ++ fault.kind)
    return fault.exitCode.toUInt32
