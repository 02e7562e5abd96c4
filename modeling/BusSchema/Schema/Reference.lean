import BusSchema.Files.Tree
import BusSchema.Schema.Fault

/-!
# References and the files behind them

A schema file lies in a directory below the root, and the names of the directories on the way are
the namespace of its definition.  A reference names a definition by its full name, or by its last
segment if it is in the namespace of the file that refers to it; either may end in a version.
-/

namespace BusSchema

/-- A name in a namespace, which is empty directly at the root. -/
def qualify (nameSpace name : String) : String :=
  if nameSpace = "" then name else nameSpace ++ "." ++ name

/-- A schema file, with what its path says about its definition. -/
structure SourceFile where
  path : Path
  header : FileName
  nameSpace : String
deriving DecidableEq

namespace SourceFile

/-- The full name of the definition in the file. -/
def name (source : SourceFile) : String := qualify source.nameSpace source.header.name

/-- The namespace of a file below the root. -/
def nameSpaceOf (root path : Path) : Except FileFault String :=
  match path.relativeTo? root.components with
  | none => .error (.outsideRoot root.text)
  | some below => .ok (Text.join "." (Path.names below.dropLast))

/-- What the path of a schema file says; the base name is looked at before the directory. -/
def describe (root path : Path) : Except FileFault SourceFile :=
  match path.fileName? with
  | none => .error .noFileName
  | some basename =>
    match FileName.read basename with
    | .error fault => .error (.fileName basename fault)
    | .ok header => (nameSpaceOf root path).map fun nameSpace => ⟨path, header, nameSpace⟩

/-- What the path of a schema file says, or an error about that file. -/
def ofPath (root path : Path) : Except SchemaError SourceFile :=
  (describe root path).mapError (.file path.text)

/-- The path has the extension of schema files. -/
def isSchemaFile (path : Path) : Bool := path.extension? = some FileName.extension

end SourceFile

/-- All files of the tree whose paths describe definitions below the root. -/
def FileTree.sources (tree : FileTree) (root : Path) : List SourceFile :=
  tree.files.filterMap fun f => (SourceFile.ofPath root f.path).toOption

/-- A reference taken apart. -/
structure Reference where
  nameSpace : List String
  name : String
  version : Option Version
deriving DecidableEq

namespace Reference

/--
The reference leaves its namespace to the file: it is a single segment, or one segment and the
two numbers of a version.
-/
def isLocal (text : String) : Bool :=
  match Text.split '.' text with
  | [_] => true
  | [_, _, minor] => (Numeral.read32? minor).isSome
  | _ => false

/-- Takes the segments of a full name with or without a version apart, last segment first. -/
def ofReversed? : List String → Option Reference
  | [] => none
  | [name] => some ⟨[], name, none⟩
  | [name, segment] => some ⟨[segment], name, none⟩
  | last :: before :: name :: nameSpace =>
    match Numeral.read32? last with
    | none => some ⟨(before :: name :: nameSpace).reverse, last, none⟩
    | some minor =>
      (Numeral.read32? before).map fun major => ⟨nameSpace.reverse, name, some ⟨major, minor⟩⟩

/--
Reads a reference in a file of the given namespace.  A reference that ends in a number without a
number before it is none.
-/
def read? (nameSpace text : String) : Option Reference :=
  let qualified := if isLocal text then qualify nameSpace text else text
  ofReversed? (Text.split '.' qualified).reverse

/-- The directory that the definition lies in. -/
def directory (root : Path) (reference : Reference) : Path :=
  reference.nameSpace.foldl Path.segment root

/-- The namespace with points between its segments. -/
def nameSpaceText (reference : Reference) : String := Text.join "." reference.nameSpace

/-- The full name of the definition. -/
def fullName (reference : Reference) : String :=
  qualify reference.nameSpaceText reference.name

end Reference

/-- The source with the highest version; of several the last one. -/
def latest? (sources : List SourceFile) : Option SourceFile :=
  sources.foldl
    (fun best s =>
      match best with
      | none => some s
      | some b => if b.header.version.le s.header.version then some s else some b)
    none

/-- The schema files among paths that define a name. -/
def sourcesNamed (root : Path) (name : String) (paths : List Path) : List SourceFile :=
  (paths.filter SourceFile.isSchemaFile).filterMap fun path =>
    (SourceFile.ofPath root path).toOption.filter fun source => source.header.name = name

/-- The file that a reference leads to. -/
def Reference.locate (tree : FileTree) (root : Path) (reference : Reference) (text : String)
    (located : LineFault → SchemaError) : Except SchemaError SourceFile :=
  let directory := reference.directory root
  if tree.isDirectory directory then
    match tree.files? directory with
    | .error reason => .error (.unreadable directory.text reason)
    | .ok paths =>
      match latest? (sourcesNamed root reference.name paths) with
      | none => .error (located (.unknownDefinition text))
      | some source => .ok source
  else .error (located (.unknownNamespace reference.nameSpaceText text))

theorem mem_of_latest? {sources : List SourceFile} {source : SourceFile}
    (h : latest? sources = some source) : source ∈ sources := by
  suffices general : ∀ best : Option SourceFile,
      sources.foldl
        (fun best s =>
          match best with
          | none => some s
          | some b => if b.header.version.le s.header.version then some s else some b)
        best = some source → best = some source ∨ source ∈ sources by
    rcases general none h with h | h
    · cases h
    · exact h
  clear h
  induction sources with
  | nil => intro best h; exact Or.inl h
  | cons s rest ih =>
    intro best h
    rw [List.foldl_cons] at h
    rcases ih _ h with h | h
    · cases best with
      | none => simp only [Option.some.injEq] at h; subst h; simp
      | some b =>
        simp only at h
        split at h
        · simp only [Option.some.injEq] at h; subst h; simp
        · exact Or.inl h
    · exact Or.inr (List.mem_cons_of_mem _ h)

theorem FileTree.mem_of_files? {tree : FileTree} {directory path : Path} {paths : List Path}
    (h : tree.files? directory = .ok paths) (hpath : path ∈ paths) :
    ∃ f ∈ tree.files, f.path = path := by
  unfold FileTree.files? at h
  split at h
  · cases h
  · split at h
    · cases h
      exact List.mem_map.1 (List.mem_filter.1 hpath).1
    · cases h

/-- What a reference leads to is one of the tree's sources. -/
theorem Reference.locate_mem_sources {tree : FileTree} {root : Path} {reference : Reference}
    {text : String} {located : LineFault → SchemaError} {source : SourceFile}
    (h : reference.locate tree root text located = .ok source) :
    source ∈ tree.sources root := by
  unfold Reference.locate at h
  dsimp only at h
  split at h
  · split at h
    · cases h
    · next paths hpaths =>
      split at h
      · cases h
      · next found hfound =>
        cases h
        have hmem := mem_of_latest? hfound
        obtain ⟨path, hpath, hsource⟩ := List.mem_filterMap.1 hmem
        obtain ⟨f, hf, rfl⟩ := FileTree.mem_of_files? hpaths (List.mem_filter.1 hpath).1
        refine List.mem_filterMap.2 ⟨f, hf, ?_⟩
        exact (Option.filter_eq_some_iff.1 hsource).1
  · cases h

end BusSchema
