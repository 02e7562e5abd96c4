import BusSchema.CommandLine

/-!
# The command

Takes a picture of the file tree below the root, and prints what the library says about it.
-/

namespace BusSchema

namespace CommandLine

/-- The text of a schema file; other files are never read. -/
def readContent (path : Path) : IO (Except String String) := do
  if SourceFile.isSchemaFile path then
    try
      match String.fromUTF8? (← IO.FS.readBinFile path.text) with
      | some text => return .ok text
      | none => return .error "stream did not contain valid UTF-8"
    catch e => return .error (toString e)
  else return .ok ""

/-- Adds what lies below a directory to a tree; symbolic links are not followed. -/
partial def addBelow (tree : FileTree) (directory : Path) : IO FileTree := do
  let mut tree := { tree with folders := directory :: tree.folders }
  try
    let place ← IO.FS.realPath directory.text
    for entry in ← place.readDir do
      let path := directory.child (.name entry.fileName)
      match (← entry.path.symlinkMetadata).type with
      | .dir => tree ← addBelow tree path
      | .file => tree := tree.put path (← readContent path)
      | _ => pure ()
    return tree
  catch e =>
    let fault : Fault := ⟨.files, directory.text, toString e⟩
    return { tree with faults := fault :: tree.faults }

/-- There is a directory at a path. -/
def isDirectory (directory : String) : IO Bool := do
  try
    let place ← IO.FS.realPath directory
    return directory ≠ "" && (← place.isDir)
  catch _ => return false

/-- The tree at a root, which is empty if there is no such directory. -/
def treeAt (root : String) : IO FileTree := do
  if ← isDirectory root then addBelow {} (Path.ofText root) else return {}

/-- Prints a report, and gives the exit code. -/
def emit (report : Report) : IO UInt32 := do
  (← IO.getStdout).putStr report.output
  (← IO.getStderr).putStr report.errors
  return UInt32.ofNat report.code

end CommandLine

end BusSchema

open scoped BusSchema.HalfConversion

def main (arguments : List String) : IO UInt32 := do
  match BusSchema.CommandLine.Request.read arguments with
  | .error e => BusSchema.CommandLine.emit e.report
  | .ok request =>
    BusSchema.CommandLine.emit (request.report (← BusSchema.CommandLine.treeAt request.root))
