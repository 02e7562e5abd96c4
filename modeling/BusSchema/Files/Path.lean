import BusSchema.Text.Blank

/-!
# Paths

A path is a text and the components that the text consists of.  Paths are compared and ordered
by their components, in which repeated slashes, a slash at the end and single points after the
start leave no trace; they are shown as they were written.
-/

namespace BusSchema

/-- A step of a path. -/
inductive PathComponent
  /-- The slash that an absolute path starts with. -/
  | root
  /-- A single point at the start of a relative path. -/
  | current
  /-- Two points. -/
  | parent
  /-- The name of a file or directory. -/
  | name (text : String)
deriving DecidableEq

namespace PathComponent

/-- The component as it is written. -/
def text : PathComponent → String
  | root => "/"
  | current => "."
  | parent => ".."
  | name text => text

/-- The position of the component's kind in the order of components. -/
def rank : PathComponent → Nat
  | root => 0
  | current => 1
  | parent => 2
  | name _ => 3

/-- Components are ordered by kind, and names by their code points. -/
def lt (a b : PathComponent) : Bool :=
  a.rank < b.rank || (a.rank = b.rank && a.text < b.text)

end PathComponent

/-- A path as written, with its components. -/
structure Path where
  text : String
  components : List PathComponent
deriving DecidableEq

namespace Path

/-- The component that a piece between two slashes stands for, if it stands for one. -/
def component? (isFirst : Bool) (piece : String) : Option PathComponent :=
  if piece = "" then none
  else if piece = "." then if isFirst then some .current else none
  else if piece = ".." then some .parent
  else some (.name piece)

/-- The components of a text. -/
def componentsOf (text : String) : List PathComponent :=
  match Text.split '/' text with
  | [] => []
  | first :: others =>
    let rest := others.filterMap (component? false)
    if first = "" ∧ others ≠ [] then .root :: rest
    else (component? true first).toList ++ rest

/-- The path that a text denotes. -/
def ofText (text : String) : Path := ⟨text, componentsOf text⟩

/-- A text with one component or name behind it. -/
def joinText (directory last : String) : String :=
  if directory = "" ∨ directory.toList.getLast? = some '/' then directory ++ last
  else directory ++ "/" ++ last

/-- The path one component below a directory. -/
def child (directory : Path) (c : PathComponent) : Path :=
  ⟨joinText directory.text c.text, directory.components ++ [c]⟩

/--
The path of a segment of a dotted name below a directory.  An empty segment stays in the
directory and only shows as a slash.
-/
def segment (directory : Path) (s : String) : Path :=
  if s = "" then ⟨joinText directory.text s, directory.components⟩
  else directory.child (.name s)

/-- The last component, if it is a name. -/
def fileName? (path : Path) : Option String :=
  match path.components.getLast? with
  | some (.name s) => some s
  | _ => none

/-- What stands after the last point of the file name, if something stands before that point. -/
def extension? (path : Path) : Option String := do
  let pieces := Text.split '.' (← path.fileName?)
  match pieces.dropLast with
  | [] => none
  | [""] => none
  | _ => pieces.getLast?

/-- The components of the directory that a path lies in. -/
def parent? (path : Path) : Option (List PathComponent) :=
  match path.components.getLast? with
  | none => none
  | some .root => none
  | some _ => some path.components.dropLast

/-- The components below a directory. -/
def relativeTo? (path : Path) (directory : List PathComponent) :
    Option (List PathComponent) :=
  dropBeginning? directory path.components

/-- The names among components. -/
def names (components : List PathComponent) : List String :=
  components.filterMap fun
    | .name s => some s
    | _ => none

/-- The order of component lists: the first difference decides, and a beginning comes first. -/
def componentsLt : List PathComponent → List PathComponent → Bool
  | _, [] => false
  | [], _ :: _ => true
  | a :: as, b :: bs => a.lt b || (a = b && componentsLt as bs)

end Path

end BusSchema
