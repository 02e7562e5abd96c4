import BusSchema.Proofs.Schema.Segments

/-!
# Adding a file to a tree

A file that is added to a tree adds its path to what directories list, and changes nothing about the
other files (`FileTree.read?_put`).  So a reference that leads to a file still leads to it, unless
the path that is added is another file of that name (`Reference.locate_put`).
-/

namespace BusSchema

namespace FileTree

variable {tree : FileTree} {path directory : Path} {content : Except String String}

/-- The paths of a list of files stay as they are, or gain the path of the file that is put. -/
theorem paths_insertFile (file : StoredFile) (files : List StoredFile) :
    (insertFile file files).map StoredFile.path = files.map StoredFile.path ∨
      ∃ front rest, files.map StoredFile.path = front ++ rest ∧
        (insertFile file files).map StoredFile.path = front ++ file.path :: rest := by
  induction files with
  | nil => exact Or.inr ⟨[], [], rfl, rfl⟩
  | cons f rest ih =>
    rw [insertFile]
    split
    · exact Or.inl rfl
    split
    · exact Or.inr ⟨[], (f :: rest).map StoredFile.path, rfl, rfl⟩
    · rcases ih with hsame | ⟨front, behind, hfront, hlater⟩
      · exact Or.inl (by rw [List.map_cons, List.map_cons, hsame])
      · refine Or.inr ⟨f.path :: front, behind, ?_, ?_⟩
        · rw [List.map_cons, hfront, List.cons_append]
        · rw [List.map_cons, hlater, List.cons_append]

theorem mem_paths_put {other : Path} (h : other ∈ tree.files.map StoredFile.path) :
    other ∈ (tree.put path content).files.map StoredFile.path := by
  rcases paths_insertFile ⟨path, content⟩ tree.files with hsame | ⟨front, rest, hfront, hlater⟩
  · exact hsame.symm ▸ h
  · rw [put, hlater]
    rw [hfront] at h
    simp only [List.mem_append, List.mem_cons] at h ⊢
    exact h.imp_right Or.inr

theorem mem_paths_of_put {other : Path}
    (h : other ∈ (tree.put path content).files.map StoredFile.path) :
    other ∈ tree.files.map StoredFile.path ∨ other = path := by
  rcases paths_insertFile ⟨path, content⟩ tree.files with hsame | ⟨front, rest, hfront, hlater⟩
  · exact Or.inl (hsame ▸ h)
  · rw [put, hlater] at h
    rw [hfront]
    simp only [List.mem_append, List.mem_cons] at h ⊢
    rcases h with h | rfl | h
    · exact Or.inl (Or.inl h)
    · exact Or.inr rfl
    · exact Or.inl (Or.inr h)

theorem isDirectory_put (h : tree.isDirectory directory = true) :
    (tree.put path content).isDirectory directory = true := by
  unfold isDirectory at h ⊢
  rw [Bool.or_eq_true] at h ⊢
  refine h.imp_left fun hfile => ?_
  obtain ⟨f, hf, hbelow⟩ := List.any_eq_true.mp hfile
  obtain ⟨g, hg, hpath⟩ := List.mem_map.mp (mem_paths_put (List.mem_map_of_mem hf))
  exact List.any_eq_true.mpr ⟨g, hg, by rwa [hpath]⟩

/-- Reading fails with the fault of the file, if it has one, and else finds it among the files. -/
theorem read?_eq (other : Path) :
    tree.read? other = ((tree.fault? .content other).map Except.error).getD
      (((tree.files.find? fun f => f.path.components = other.components).map
        StoredFile.content).getD (.error (notFound other))) := by
  unfold read?
  cases tree.fault? .content other with
  | some reason => rfl
  | none => cases tree.files.find? fun f => f.path.components = other.components <;> rfl

/-- The text of another file stays the same. -/
theorem read?_put {other : Path} (h : path.components ≠ other.components) :
    (tree.put path content).read? other = tree.read? other := by
  have hfound := find?_insertFile ⟨path, content⟩ tree.files other.components
  rw [if_neg h] at hfound
  rw [read?_eq, read?_eq, put, hfound]
  rfl

/-- A directory lists the same files, or the added one among them. -/
theorem files?_put (path : Path) (content : Except String String) {paths : List Path}
    (h : tree.files? directory = .ok paths) :
    ∃ later, (tree.put path content).files? directory = .ok later ∧
      (later = paths ∨ path.parent? = some directory.components ∧
        ∃ front rest, paths = front ++ rest ∧ later = front ++ path :: rest) := by
  unfold files? at h
  split at h
  · cases h
  next hfault =>
  split at h
  swap
  · cases h
  next hdirectory =>
  cases h
  have hlist : (tree.put path content).files? directory =
      .ok (((tree.put path content).files.map StoredFile.path).filter
        fun path => path.parent? = some directory.components) := by
    have hsame : (tree.put path content).fault? .files directory = none := hfault
    unfold files?
    rw [hsame, if_pos (isDirectory_put hdirectory)]
  refine ⟨_, hlist, ?_⟩
  rcases paths_insertFile ⟨path, content⟩ tree.files with hsame | ⟨front, rest, hfront, hlater⟩
  · exact Or.inl (by rw [put, hsame])
  · rw [put, hlater, hfront, List.filter_append, List.filter_append]
    by_cases hparent : path.parent? = some directory.components
    · refine Or.inr ⟨hparent, _, _, rfl, ?_⟩
      rw [List.filter_cons_of_pos (by simpa using hparent)]
    · exact Or.inl (by rw [List.filter_cons_of_neg (by simpa using hparent)])

end FileTree

/-- What a path says depends on its components only, but for the way in which it is written. -/
theorem SourceFile.ofPath_congr {root a b : Path} {s : SourceFile}
    (hsame : a.components = b.components) (h : SourceFile.ofPath root a = .ok s) :
    SourceFile.ofPath root b = .ok { s with path := b } := by
  have hdescribe := mapError_eq_ok_iff.mp h
  refine mapError_eq_ok_iff.mpr ?_
  unfold describe at hdescribe ⊢
  have hname : b.fileName? = a.fileName? := by rw [Path.fileName?, Path.fileName?, hsame]
  have hspace : nameSpaceOf root b = nameSpaceOf root a := by
    rw [nameSpaceOf, nameSpaceOf, Path.relativeTo?, Path.relativeTo?, hsame]
  rw [hname, hspace]
  split at hdescribe
  · cases hdescribe
  split at hdescribe
  · cases hdescribe
  obtain ⟨nameSpace, hnameSpace, rfl⟩ := map_eq_ok_iff.mp hdescribe
  rw [hnameSpace]
  rfl

variable {tree : FileTree} {root path : Path} {content : Except String String} {s : SourceFile}

/-- A file of the larger tree is one of the tree, or the added one. -/
theorem FileTree.mem_sources_of_put (h : s ∈ (tree.put path content).sources root) :
    s ∈ tree.sources root ∨ SourceFile.ofPath root path = .ok s := by
  obtain ⟨hpath, hof⟩ := FileTree.mem_sources_iff.mp h
  rcases FileTree.mem_paths_of_put hpath with hold | hadded
  · exact Or.inl (FileTree.mem_sources_iff.mpr ⟨hold, hof⟩)
  · exact Or.inr (hadded ▸ hof)

namespace Reference

variable {reference : Reference} {text : String} {located : LineFault → SchemaError}

/-- A reference that leads to a file still leads to it if the added file has another name. -/
theorem locate_put (h : reference.locate tree root text located = .ok s)
    (hnew : ∀ added, SourceFile.ofPath root path = .ok added → added.name ≠ s.name) :
    reference.locate (tree.put path content) root text located = .ok s := by
  have hname := (name_of_locate h).1
  have hdirectory : tree.isDirectory (reference.directory root) = true := by
    unfold locate at h
    dsimp only at h
    split at h
    · assumption
    · cases h
  obtain ⟨paths, hpaths, hlatest⟩ := locate_eq_ok h
  obtain ⟨later, hlater, hcase⟩ := FileTree.files?_put path content hpaths
  -- The added path is no file of that name in the directory.
  have hsources : sourcesNamed root reference.name later =
      sourcesNamed root reference.name paths := by
    rcases hcase with rfl | ⟨hparent, front, rest, rfl, rfl⟩
    · rfl
    have hnone : sourcesNamed root reference.name [path] = [] := by
      rw [List.eq_nil_iff_forall_not_mem]
      intro added hadded
      obtain ⟨hpath, hschema, hof, hlast⟩ := mem_sourcesNamed.mp hadded
      obtain hpath : added.path = path := List.mem_singleton.mp hpath
      rw [hpath] at hschema hof
      refine hnew added hof ?_
      rw [hname, SourceFile.name, nameSpace_of_directory hof hschema hparent, hlast]
    have hparts : ∀ a b, sourcesNamed root reference.name (a ++ b) =
        sourcesNamed root reference.name a ++ sourcesNamed root reference.name b := by
      intro a b
      unfold sourcesNamed
      rw [List.filter_append, List.filterMap_append]
    rw [hparts, hparts, ← List.singleton_append, hparts, hnone, List.nil_append]
  unfold locate
  dsimp only
  rw [if_pos (FileTree.isDirectory_put hdirectory), hlater]
  dsimp only
  rw [hsources, hlatest]

end Reference

end BusSchema
