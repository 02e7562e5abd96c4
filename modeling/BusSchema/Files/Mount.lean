import BusSchema.Files.Tree

/-!
# Trees below a root

Files that lie in a working directory are listed by their paths from there.  A reader that starts
at a root directory sees those below that root, and writes their paths with the root in front, as
the root was written.
-/

namespace BusSchema

/-- The contents of a working directory. -/
structure WorkingDirectory where
  /-- The paths of files from the directory, with their contents. -/
  files : List (List String × Except String String) := []
  /-- The paths of directories that exist whether or not files lie below them. -/
  folders : List (List String) := []

namespace WorkingDirectory

/-- There is a directory at a path. -/
def hasDirectory (w : WorkingDirectory) (path : List String) : Bool :=
  path.isEmpty ||
    w.files.any (fun f => startsWith path f.1 && f.1 ≠ path) || w.folders.any (startsWith path)

/-- Follows a component from a directory, if that leads to a directory inside. -/
def step? (w : WorkingDirectory) (here : List String) : PathComponent → Option (List String)
  | .root => none
  | .current => some here
  | .parent => if here.isEmpty then none else some here.dropLast
  | .name s => if w.hasDirectory (here ++ [s]) then some (here ++ [s]) else none

/-- The directory that a path leads to; the empty path leads nowhere. -/
def follow? (w : WorkingDirectory) (path : Path) : Option (List String) :=
  if path.components.isEmpty then none else path.components.foldlM w.step? []

/-- A path below a root, by the names on the way. -/
def pathBelow (root : Path) (names : List String) : Path := names.foldl Path.segment root

/-- The tree that a reader sees who starts at a root. -/
def mount (w : WorkingDirectory) (root : Path) : FileTree :=
  match w.follow? root with
  | none => {}
  | some base =>
    let files := w.files.filterMap fun (path, content) =>
      (dropBeginning? base path).map fun below => (pathBelow root below, content)
    let folders := w.folders.filterMap fun path =>
      (dropBeginning? base path).map (pathBelow root)
    files.foldl (fun tree (path, content) => tree.put path content)
      { folders := root :: folders }

/-- The working directory with a file at a path that consists of names and points. -/
def addFile (w : WorkingDirectory) (path : Path) (content : Except String String) :
    WorkingDirectory :=
  { w with files := w.files ++ [(Path.names path.components, content)] }

/-- The working directory with a directory at a path that consists of names and points. -/
def addFolder (w : WorkingDirectory) (path : Path) : WorkingDirectory :=
  { w with folders := w.folders ++ [Path.names path.components] }

end WorkingDirectory

end BusSchema
