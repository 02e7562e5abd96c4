import BusSchema.Schema.Draft
import BusSchema.Schema.Reference

/-!
# Loading definitions from a file tree

Files are read into a type table.  A reference to a definition that is not in the table yet makes
its file be read first, so a definition comes after those that it refers to.  The names of the
definitions that are being read at a time form a chain without repetitions, and a reference into
the chain is an error; each step down the chain leaves fewer sources of the tree outside of it,
which is why loading comes to an end.  All parts of the loader take the way in which files are read
as an argument; `Load.loadDefinition` is the one that goes down the chain.

A failed load keeps the definitions that were completed before the failure, except that loading a
whole tree is all or nothing.
-/

namespace BusSchema

/-- Reading into a type table, which keeps what was completed when an error occurs. -/
abbrev Load := ExceptT SchemaError (StateM TypeTable)

namespace Load

/-- A result that leaves the table alone. -/
def ofExcept {α : Type} : Except SchemaError α → Load α
  | .ok a => pure a
  | .error e => throw e

/-- A result that leaves the table alone, and whose fault is located in a line of a file. -/
def ofLine {α : Type} (located : LineFault → SchemaError) (result : Except LineFault α) :
    Load α :=
  ofExcept (result.mapError located)

end Load

/-- The text of a line before its comment, without blanks at its ends. -/
def stripComment (line : List Char) : List Char :=
  Text.trim (line.takeWhile (· ≠ '#'))

namespace Load

/-- How a reference is turned into a position of the type table. -/
abbrev Resolver := (LineFault → SchemaError) → String → Load Nat

/-- The type that is written without an array bound. -/
def elaborateScalar (resolve : Resolver) (located : LineFault → SchemaError)
    (cast : CastMode) : ScalarExpr → Load FieldType
  | .padding digits => ofLine located (FieldType.readPadding digits)
  | .boolean => pure (.primitive (Primitive.boolean cast))
  | .numeric kind digits => ofLine located (FieldType.readNumeric kind digits cast)
  | .named reference => do return .compound (← resolve located reference)

/-- The type that is written. -/
def elaborateType (resolve : Resolver) (located : LineFault → SchemaError)
    (cast : CastMode) : TypeExpr → Load FieldType
  | .scalar type => elaborateScalar resolve located cast type
  | .array element bound => do
    let type ← elaborateScalar resolve located cast element
    ofLine located (FieldType.makeArray (← get) type bound)

/-- The draft after one more statement. -/
def elaborateStatement (resolve : Resolver) (located : LineFault → SchemaError)
    (draft : DefinitionDraft) : Statement → Load DefinitionDraft
  | .separator => ofLine located draft.separate
  | .directive name hasArgument => ofLine located (draft.direct name hasArgument)
  | .member attr => do
    let type ← elaborateType resolve located attr.cast attr.type
    let made ← ofLine located (Attribute.make type attr.name attr.literal)
    ofLine located (draft.push (← get) made)

/-- The draft after one more line; blank lines and comments leave it as it is. -/
def elaborateLine (resolve : Resolver) (located : LineFault → SchemaError)
    (draft : DefinitionDraft) (line : List Char) : Load DefinitionDraft :=
  match stripComment line with
  | [] => pure draft
  | text =>
    match Statement.read? text with
    | none => throw (located .malformed)
    | some statement => elaborateStatement resolve located draft statement

/-- The draft after the given lines, of which the first has the given number. -/
def elaborateLines (resolve : Resolver) (path : String) :
    Nat → List (List Char) → DefinitionDraft → Load DefinitionDraft
  | _, [], draft => pure draft
  | number, line :: rest, draft => do
    let next ← elaborateLine resolve (.line path number) draft line
    elaborateLines resolve path (number + 1) rest next

/-- The definition in the text of a file. -/
def elaborateText (resolve : Resolver) (source : SourceFile) (text : String) :
    Load Definition := do
  let draft ← elaborateLines resolve source.path.text 1 (Text.lines text.toList) {}
  return draft.finish source.name source.header

/-- Adds a definition to the table.  One that was read is only refused because its name is taken. -/
def insert (d : Definition) : Load Nat := do
  match (← get).insert? d with
  | none => throw (.duplicateName d.name)
  | some (id, table) => do
    set table
    return id

/-- Checks that the definition at a position is what a reference to it asks for. -/
def checkReference (located : LineFault → SchemaError) (text : String) (reference : Reference)
    (id : Nat) : Load Nat := do
  match (← get).definitions[id]? with
  | none => throw (located (.unknownDefinition text))
  | some d =>
    match reference.version with
    | some wanted =>
      if d.version ≠ wanted then
        throw (located (.otherVersion text wanted reference.fullName d.version))
    | none => pure ()
    if d.isService then throw (located (.embeddedService reference.fullName))
    return id

/-- Reads a file of the tree. -/
def readSource (tree : FileTree) (source : SourceFile) : Load String :=
  match tree.read? source.path with
  | .ok text => pure text
  | .error reason => throw (.unreadable source.path.text reason)

/-- How many sources of a tree are outside of a chain of names. -/
def sourcesOutside (tree : FileTree) (root : Path) (chain : List String) : Nat :=
  (tree.sources root).countP fun source => source.name ∉ chain

theorem countP_lt_countP {α : Type} {p q : α → Bool} {list : List α} {a : α}
    (himp : ∀ b ∈ list, p b = true → q b = true) (hmem : a ∈ list) (hp : p a = false)
    (hq : q a = true) : list.countP p < list.countP q := by
  induction list with
  | nil => cases hmem
  | cons b rest ih =>
    have himpRest : ∀ c ∈ rest, p c = true → q c = true :=
      fun c hc => himp c (List.mem_cons_of_mem _ hc)
    rw [List.countP_cons, List.countP_cons]
    rcases List.mem_cons.1 hmem with rfl | hmem
    · have := List.countP_mono_left himpRest
      simp only [hp, hq, if_true, Bool.false_eq_true, if_false]
      omega
    · have hrest := ih himpRest hmem
      have hhead := himp b List.mem_cons_self
      cases hpb : p b with
      | false =>
        rw [if_neg Bool.false_ne_true]
        exact Nat.lt_of_lt_of_le hrest (Nat.le_add_right _ _)
      | true =>
        rw [hhead hpb]
        exact Nat.add_lt_add_right hrest _

theorem sourcesOutside_lt {tree : FileTree} {root : Path} {chain : List String}
    {source : SourceFile} (hmem : source ∈ tree.sources root) (hnew : source.name ∉ chain) :
    sourcesOutside tree root (chain ++ [source.name]) < sourcesOutside tree root chain := by
  refine countP_lt_countP ?_ hmem ?_ ?_
  · intro s _ hs
    simp only [List.mem_append, List.mem_singleton, not_or, decide_eq_true_eq] at hs ⊢
    exact hs.1
  · simp
  · simpa using hnew

/-- How a file is read while the names of a chain are being read, of which its own is the last. -/
abbrev Reader := List String → SourceFile → String → Load Nat

/-- How the files behind a chain are read, those of the tree whose names are not on it. -/
abbrev NestedReader (tree : FileTree) (root : Path) (chain : List String) :=
  ∀ target ∈ tree.sources root, target.name ∉ chain → String → Load Nat

/-- The reader for the files behind a chain. -/
def Reader.behind (read : Reader) (tree : FileTree) (root : Path) (chain : List String) :
    NestedReader tree root chain :=
  fun target _ _ => read (chain ++ [target.name]) target

section Nested

variable (tree : FileTree) (root : Path) (chain : List String)
  (nested : NestedReader tree root chain)

/--
The definition that a reference leads to.  If there is none of its name yet, then the file behind
the reference is read, unless the chain comes back to itself.
-/
def follow (located : LineFault → SchemaError) (written : String) (reference : Reference)
    (target : SourceFile) (hmem : target ∈ tree.sources root) : Load Nat := do
  match (← get).find? reference.fullName with
  | some id => checkReference located written reference id
  | none =>
    if hchain : reference.fullName ∈ chain ∨ target.name ∈ chain then
      throw (located (.recursiveReference chain reference.fullName))
    else do
      let targetText ← readSource tree target
      if (← get).contains target.name then throw (.duplicateName target.name)
      let id ← nested target hmem (fun h => hchain (Or.inr h)) targetText
      checkReference located written reference id

/-- How references of a file are resolved while the names of a chain are being read. -/
def resolverWith (source : SourceFile) : Resolver := fun located written =>
  match Reference.read? source.nameSpace written with
  | none => throw (located (.referenceVersion written))
  | some reference =>
    match hlocate : reference.locate tree root written located with
    | .error e => throw e
    | .ok target =>
      follow tree root chain nested located written reference target
        (Reference.locate_mem_sources hlocate)

/-- Reads the definition in a text. -/
def loadDefinitionWith (source : SourceFile) (text : String) : Load Nat := do
  insert (← elaborateText (resolverWith tree root chain nested source) source text)

end Nested

/--
Reads the definition in a text, with the definitions that it refers to.  The chain holds the names
of the definitions that are being read, this one last.
-/
def loadDefinition (tree : FileTree) (root : Path) (chain : List String) (source : SourceFile)
    (text : String) : Load Nat :=
  loadDefinitionWith tree root chain
    (fun target _hmem _hnew => loadDefinition tree root (chain ++ [target.name]) target) source text
  termination_by sourcesOutside tree root chain
  decreasing_by exact sourcesOutside_lt _hmem _hnew

/-- Reads the definition in a text that is not in the table yet. -/
def loadNewWith (read : Reader) (source : SourceFile) (text : String) : Load Nat := do
  if (← get).contains source.name then throw (.duplicateName source.name)
  read [source.name] source text

/-- Reads the definition in a text that is not in the table yet, with those that it refers to. -/
def loadNew (tree : FileTree) (root : Path) : SourceFile → String → Load Nat :=
  loadNewWith (loadDefinition tree root)

/-- Reads the definition in a text that is taken as the content of the file at a path. -/
def loadText (tree : FileTree) (root path : Path) (text : String) : Load Nat :=
  match SourceFile.ofPath root path with
  | .error e => throw e
  | .ok source => loadNew tree root source text

end Load

namespace FileTree

/-- The schema files in a directory and below it, those of the directory itself first. -/
def walk (tree : FileTree) (directory : Path) : Except SchemaError (List Path) :=
  match tree.files? directory with
  | .error reason => .error (.unreadable directory.text reason)
  | .ok files =>
    match _hbelow : tree.directories? directory with
    | .error reason => .error (.unreadable directory.text reason)
    | .ok below => do
      let deeper ← below.attach.mapM fun ⟨d, _⟩ => tree.walk d
      return files.filter SourceFile.isSchemaFile ++ deeper.flatten
  termination_by tree.depth - directory.components.length
  decreasing_by
    have := mem_directories_length _hbelow (by assumption)
    omega

end FileTree

/-- Puts a source into a list with one source for each name, the first with the highest version. -/
def keepLatest (kept : List SourceFile) (source : SourceFile) : List SourceFile :=
  if kept.any (·.name = source.name) then
    kept.map fun k =>
      if k.name = source.name ∧ !source.header.version.le k.header.version then source else k
  else kept ++ [source]

namespace Load

/-- The sources of a tree that are to be loaded, in the order in which their names are met. -/
def selectSources (tree : FileTree) (root : Path) : Except SchemaError (List SourceFile) := do
  let sources ← (← tree.walk root).mapM (SourceFile.ofPath root)
  return sources.foldl keepLatest []

/-- Loads a file unless its definition is in the table already. -/
def loadSourceWith (read : Reader) (tree : FileTree) (source : SourceFile) : Load Unit := do
  if (← get).contains source.name then return
  let text ← readSource tree source
  let _ ← loadNewWith read source text

/-- Loads one definition for each name in the tree. -/
def loadSelectedWith (read : Reader) (tree : FileTree) (root : Path) : Load Unit :=
  match selectSources tree root with
  | .error e => throw e
  | .ok sources => sources.forM (loadSourceWith read tree)

/--
Loads a whole tree in place of what the table held.  Without a root directory the table stays as
it is, and after any other error it is empty.
-/
def loadAllWith (read : Reader) (tree : FileTree) (root : Path) : Load Unit := fun table =>
  if tree.isDirectory root then
    match (loadSelectedWith read tree root).run .empty with
    | (.ok _, loaded) => (.ok (), loaded)
    | (.error e, _) => (.error e, .empty)
  else (.error (.rootNotFound root.text), table)

/-- Loads a file with the definitions that it refers to. -/
def loadSource (tree : FileTree) (root : Path) : SourceFile → Load Unit :=
  loadSourceWith (loadDefinition tree root) tree

/-- Loads one definition for each name in the tree, with those that it refers to. -/
def loadSelected (tree : FileTree) (root : Path) : Load Unit :=
  loadSelectedWith (loadDefinition tree root) tree root

/-- Loads a whole tree. -/
def loadAll (tree : FileTree) (root : Path) : Load Unit :=
  loadAllWith (loadDefinition tree root) tree root

end Load

/-- The type table of a whole tree. -/
def TypeTable.ofTree (tree : FileTree) (root : Path) : Except SchemaError TypeTable :=
  match (Load.loadAll tree root).run .empty with
  | (.ok _, table) => .ok table
  | (.error e, _) => .error e

end BusSchema
