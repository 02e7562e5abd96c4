import BusSchema.Files.Path
import BusSchema.Number.Power

/-!
# File trees

A file tree is a finite set of files with their contents.  Directories exist as far as files or
listed folders lie below them.  Any access can be made to fail, so the behaviour of a reader on a
tree with faults is a function of the tree like everything else.

The main fact stated here is `mem_directories_length`: a directory listing only leads further
down, and never deeper than `FileTree.depth`.
-/

namespace BusSchema

/-- What a reader does with a tree. -/
inductive Access
  | files
  | directories
  | content
deriving DecidableEq

/-- An access that fails, and the reason it fails with. -/
structure Fault where
  access : Access
  /-- The path as written. -/
  path : String
  reason : String
deriving DecidableEq

/-- A file with its text, or with the reason why it has none. -/
structure StoredFile where
  path : Path
  content : Except String String

/-- A finite tree of files. -/
structure FileTree where
  /-- The files, in the order of their paths. -/
  files : List StoredFile := []
  /-- Directories that exist whether or not files lie below them. -/
  folders : List Path := []
  /-- The accesses that fail. -/
  faults : List Fault := []

namespace FileTree

/-- Puts a file into a list that is ordered by path; a file at that path keeps its spelling. -/
def insertFile (file : StoredFile) : List StoredFile → List StoredFile
  | [] => [file]
  | f :: rest =>
    if f.path.components = file.path.components then { f with content := file.content } :: rest
    else if Path.componentsLt file.path.components f.path.components then file :: f :: rest
    else f :: insertFile file rest

/-- The tree with a file added or replaced. -/
def put (tree : FileTree) (path : Path) (content : Except String String) : FileTree :=
  { tree with files := insertFile ⟨path, content⟩ tree.files }

/-- The tree with files added in order, a later text replacing an earlier one. -/
def ofTexts (texts : List (String × String)) : FileTree :=
  texts.foldl (fun tree (path, text) => tree.put (Path.ofText path) (.ok text)) {}

/-- The reason why an access fails although nothing is wrong with its path. -/
def fault? (tree : FileTree) (access : Access) (path : Path) : Option String :=
  (tree.faults.find? fun f => f.access = access && f.path = path.text).map Fault.reason

/-- The reason why an access fails when there is nothing at its path. -/
def notFound (path : Path) : String := path.text ++ " not found"

/-- The path is a directory: something lies below it, or it is listed as one. -/
def isDirectory (tree : FileTree) (path : Path) : Bool :=
  (tree.files.any fun f =>
    startsWith path.components f.path.components && f.path.components ≠ path.components) ||
  tree.folders.any fun d => startsWith path.components d.components

/-- The files that lie directly in a directory, in the order of their paths. -/
def files? (tree : FileTree) (directory : Path) : Except String (List Path) :=
  match tree.fault? .files directory with
  | some reason => .error reason
  | none =>
    if tree.isDirectory directory then
      .ok <| (tree.files.map StoredFile.path).filter
        fun path => path.parent? = some directory.components
    else .error (notFound directory)

/-- The first step from a directory to a file, if the file lies in a directory below it. -/
def stepToFile? (directory : List PathComponent) (path : Path) : Option PathComponent :=
  match path.relativeTo? directory with
  | some (first :: _ :: _) => some first
  | _ => none

/-- The first step from a directory to a folder below it. -/
def stepToFolder? (directory : List PathComponent) (path : Path) : Option PathComponent :=
  match path.relativeTo? directory with
  | some (first :: _) => some first
  | _ => none

/-- Puts a component into an ordered list, once. -/
def insertComponent (c : PathComponent) : List PathComponent → List PathComponent
  | [] => [c]
  | d :: rest =>
    if d = c then d :: rest
    else if c.lt d then c :: d :: rest
    else d :: insertComponent c rest

/-- The steps from a directory to the directories directly below it, in order. -/
def steps (tree : FileTree) (directory : List PathComponent) : List PathComponent :=
  let found :=
    (tree.files.filterMap fun f => stepToFile? directory f.path) ++
      tree.folders.filterMap (stepToFolder? directory)
  found.foldr insertComponent []

/-- The directories directly below a directory, in the order of their paths. -/
def directories? (tree : FileTree) (directory : Path) : Except String (List Path) :=
  match tree.fault? .directories directory with
  | some reason => .error reason
  | none =>
    if tree.isDirectory directory then
      .ok ((tree.steps directory.components).map directory.child)
    else .error (notFound directory)

/-- The text of a file. -/
def read? (tree : FileTree) (path : Path) : Except String String :=
  match tree.fault? .content path with
  | some reason => .error reason
  | none =>
    match tree.files.find? fun f => f.path.components = path.components with
    | some f => f.content
    | none => .error (notFound path)

/-- No path of the tree has more components than this. -/
def depth (tree : FileTree) : Nat :=
  maximum ((tree.files.map fun f => f.path.components.length) ++
    tree.folders.map fun d => d.components.length)

theorem find?_insertFile (file : StoredFile) (files : List StoredFile)
    (components : List PathComponent) :
    ((insertFile file files).find? (·.path.components = components)).map StoredFile.content =
      if file.path.components = components then some file.content
      else (files.find? (·.path.components = components)).map StoredFile.content := by
  induction files with
  | nil => by_cases h : file.path.components = components <;> simp [insertFile, h]
  | cons f rest ih =>
    rw [insertFile]
    split
    · next hsame =>
      by_cases h : file.path.components = components
      · simp [hsame, h]
      · simp [hsame, h]
    · next hother =>
      split
      · by_cases h : file.path.components = components <;> simp [h]
      · by_cases h : file.path.components = components
        · have hf : f.path.components ≠ components := fun hf => hother (hf.trans h.symm)
          rw [if_pos h] at ih ⊢
          simpa [hf] using ih
        · rw [if_neg h] at ih ⊢
          by_cases hf : f.path.components = components
          · simp [hf]
          · simpa [hf] using ih

theorem le_maximum {n : Nat} {numbers : List Nat} (h : n ∈ numbers) : n ≤ maximum numbers := by
  induction numbers with
  | nil => cases h
  | cons a rest ih =>
    rw [maximum, List.foldr_cons]
    rcases List.mem_cons.1 h with rfl | h
    · exact Nat.le_max_left _ _
    · exact Nat.le_trans (ih h) (Nat.le_max_right _ _)

theorem mem_insertComponent {c d : PathComponent} {list : List PathComponent} :
    d ∈ insertComponent c list ↔ d = c ∨ d ∈ list := by
  induction list with
  | nil => simp [insertComponent]
  | cons e rest ih =>
    rw [insertComponent]
    split
    · next h => subst h; simp
    · split
      · simp
      · rw [List.mem_cons, ih, List.mem_cons, or_left_comm]

theorem mem_foldr_insertComponent {d : PathComponent} {found : List PathComponent} :
    d ∈ found.foldr insertComponent [] ↔ d ∈ found := by
  induction found with
  | nil => simp
  | cons c rest ih => rw [List.foldr_cons, mem_insertComponent, ih, List.mem_cons]

theorem length_of_relativeTo {path : Path} {directory rest : List PathComponent}
    (h : path.relativeTo? directory = some rest) :
    path.components.length = directory.length + rest.length := by
  rw [dropBeginning?_eq_some_iff.1 h, List.length_append]

/-- A step down from a directory leads to no more components than the tree has. -/
theorem length_lt_depth_of_mem_steps {tree : FileTree} {directory : List PathComponent}
    {c : PathComponent} (h : c ∈ tree.steps directory) : directory.length < tree.depth := by
  rw [steps, mem_foldr_insertComponent, List.mem_append, List.mem_filterMap,
    List.mem_filterMap] at h
  rcases h with ⟨f, hf, hstep⟩ | ⟨d, hd, hstep⟩
  · have hdepth : f.path.components.length ≤ tree.depth :=
      le_maximum (List.mem_append_left _ (List.mem_map_of_mem hf))
    unfold stepToFile? at hstep
    split at hstep
    · next heq =>
      have := length_of_relativeTo heq
      simp only [List.length_cons] at this
      omega
    · cases hstep
  · have hdepth : d.components.length ≤ tree.depth :=
      le_maximum (List.mem_append_right _ (List.mem_map_of_mem hd))
    unfold stepToFolder? at hstep
    split at hstep
    · next heq =>
      have := length_of_relativeTo heq
      simp only [List.length_cons] at this
      omega
    · cases hstep

/-- A listed directory is one step deeper, and no deeper than the tree. -/
theorem mem_directories_length {tree : FileTree} {directory below : Path}
    {listed : List Path} (hlisted : tree.directories? directory = .ok listed)
    (hbelow : below ∈ listed) :
    below.components.length = directory.components.length + 1 ∧
      below.components.length ≤ tree.depth := by
  unfold directories? at hlisted
  split at hlisted
  · cases hlisted
  · split at hlisted
    · cases hlisted
      obtain ⟨c, hc, rfl⟩ := List.mem_map.1 hbelow
      have := length_lt_depth_of_mem_steps hc
      simp only [Path.child, List.length_append, List.length_singleton, true_and]
      exact this
    · cases hlisted

end FileTree

end BusSchema
