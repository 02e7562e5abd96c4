import BusSchema.Proofs.Files.Order
import BusSchema.Proofs.Results
import BusSchema.Schema.Load

/-!
# The walk through a file tree

A walk that succeeds meets the schema files of the tree that lie below the directory, at any depth
(`FileTree.mem_walk_iff`).  The way down to a file is the list of components that the directory does
not have, and each step of the walk takes one of them.

No file is met twice, because the steps of a directory are all different
(`FileTree.pairwise_walk`); and a walk from a directory only fails where an access does
(`FileTree.exists_walk`).
-/

namespace BusSchema

namespace Path

/-- The parent of a path with a file name has all components but the last. -/
theorem parent?_eq_some_iff {path : Path} {directory : List PathComponent}
    (hname : path.fileName?.isSome) :
    path.parent? = some directory ↔ ∃ last, path.components = directory ++ [last] := by
  unfold fileName? at hname
  unfold parent?
  cases hlast : path.components.getLast? with
  | none =>
    rw [hlast] at hname
    cases hname
  | some last =>
    obtain ⟨front, hfront⟩ := List.getLast?_eq_some_iff.mp hlast
    rw [hlast] at hname
    rw [hfront, List.dropLast_concat]
    cases last with
    | name s => simp [eq_comm]
    | root => cases hname
    | current => cases hname
    | parent => cases hname

end Path

theorem SourceFile.fileName?_isSome_of_isSchemaFile {path : Path}
    (h : SourceFile.isSchemaFile path = true) : path.fileName?.isSome := by
  unfold SourceFile.isSchemaFile Path.extension? at h
  cases hname : path.fileName? with
  | none =>
    rw [hname] at h
    cases h
  | some name => rfl

namespace FileTree

variable {tree : FileTree} {directory path : Path} {paths : List Path}

theorem files?_eq_ok (h : tree.files? directory = .ok paths) :
    paths = (tree.files.map StoredFile.path).filter
      fun path => path.parent? = some directory.components := by
  unfold files? at h
  split at h
  · cases h
  · split at h
    · cases h
      rfl
    · cases h

theorem mem_files?_iff (h : tree.files? directory = .ok paths) :
    path ∈ paths ↔
      path ∈ tree.files.map StoredFile.path ∧ path.parent? = some directory.components := by
  rw [files?_eq_ok h, List.mem_filter, decide_eq_true_iff]

theorem directories?_eq_ok (h : tree.directories? directory = .ok paths) :
    paths = (tree.steps directory.components).map directory.child := by
  unfold directories? at h
  split at h
  · cases h
  · split at h
    · cases h
      rfl
    · cases h

theorem mem_directories?_iff (h : tree.directories? directory = .ok paths) :
    path ∈ paths ↔ ∃ c ∈ tree.steps directory.components, directory.child c = path := by
  rw [directories?_eq_ok h]
  exact List.mem_map

/-- The first component on the way down to a file is a step of its directory. -/
theorem mem_steps {components : List PathComponent} {c next : PathComponent}
    {rest : List PathComponent} (hpath : path ∈ tree.files.map StoredFile.path)
    (hbelow : path.components = components ++ c :: next :: rest) : c ∈ tree.steps components := by
  obtain ⟨f, hf, rfl⟩ := List.mem_map.mp hpath
  have hstep : stepToFile? components f.path = some c := by
    have hrelative : f.path.relativeTo? components = some (c :: next :: rest) :=
      dropBeginning?_eq_some_iff.mpr hbelow
    rw [stepToFile?, hrelative]
  rw [steps, mem_foldr_insertComponent]
  exact List.mem_append_left _ (List.mem_filterMap.mpr ⟨f, hf, hstep⟩)

/-- A walk meets the files of the directory and then what it meets in the directories below. -/
theorem walk_eq_ok_iff :
    tree.walk directory = .ok paths ↔
      ∃ (files below : List Path) (deeper : List (List Path)),
        tree.files? directory = .ok files ∧ tree.directories? directory = .ok below ∧
          below.map tree.walk = deeper.map .ok ∧
          paths = files.filter SourceFile.isSchemaFile ++ deeper.flatten := by
  have hattach : ∀ below : List Path,
      (below.attach.map fun d => tree.walk d.1) = below.map tree.walk := fun _ =>
    List.attach_map_val
  rw [walk]
  cases hfiles : tree.files? directory with
  | error reason => simp
  | ok files =>
    simp only
    split
    · next reason hbelow => simp [hbelow]
    · next below hbelow =>
      rw [bind_eq_ok_iff]
      simp only [mapM_eq_ok_iff, hattach, hbelow, Except.ok.injEq]
      constructor
      · rintro ⟨deeper, hdeeper, hpaths⟩
        cases hpaths
        exact ⟨files, below, deeper, rfl, rfl, hdeeper, rfl⟩
      · rintro ⟨_, _, deeper, rfl, rfl, hdeeper, rfl⟩
        exact ⟨deeper, hdeeper, rfl⟩

/-- A walk meets exactly the schema files of the tree below its directory. -/
theorem mem_walk_iff (h : tree.walk directory = .ok paths) :
    path ∈ paths ↔ path ∈ tree.files.map StoredFile.path ∧
      SourceFile.isSchemaFile path = true ∧
      ∃ below, below ≠ [] ∧ path.components = directory.components ++ below := by
  constructor
  · -- The directories of a listing are deeper, and no deeper than the tree.
    induction hdepth : tree.depth - directory.components.length using Nat.strongRecOn
      generalizing directory paths with
    | _ remaining ih =>
    subst hdepth
    obtain ⟨files, directories, deeper, hfiles, hdirectories, hdeeper, rfl⟩ :=
      walk_eq_ok_iff.mp h
    rw [List.mem_append, List.mem_filter, List.mem_flatten]
    rintro (⟨hpath, hschema⟩ | ⟨found, hfound, hpath⟩)
    · obtain ⟨hfile, hparent⟩ := (mem_files?_iff hfiles).mp hpath
      have hname := SourceFile.fileName?_isSome_of_isSchemaFile hschema
      obtain ⟨last, hlast⟩ := (Path.parent?_eq_some_iff hname).mp hparent
      exact ⟨hfile, hschema, [last], List.cons_ne_nil _ _, hlast⟩
    · have hmem : .ok found ∈ directories.map tree.walk := hdeeper ▸ List.mem_map_of_mem hfound
      obtain ⟨d, hd, hwalk⟩ := List.mem_map.mp hmem
      obtain ⟨hlonger, hbound⟩ := mem_directories_length hdirectories hd
      obtain ⟨hfile, hschema, below, -, hbelow⟩ := ih _ (by omega) hwalk rfl hpath
      obtain ⟨c, -, rfl⟩ := (mem_directories?_iff hdirectories).mp hd
      refine ⟨hfile, hschema, c :: below, List.cons_ne_nil _ _, ?_⟩
      rw [hbelow, Path.child, List.append_assoc]
      rfl
  · rintro ⟨hfile, hschema, below, hne, hbelow⟩
    induction below generalizing directory paths with
    | nil => exact absurd rfl hne
    | cons c rest ih =>
      obtain ⟨files, directories, deeper, hfiles, hdirectories, hdeeper, rfl⟩ :=
        walk_eq_ok_iff.mp h
      rw [List.mem_append, List.mem_filter, List.mem_flatten]
      cases rest with
      | nil =>
        left
        have hname := SourceFile.fileName?_isSome_of_isSchemaFile hschema
        have hparent := (Path.parent?_eq_some_iff hname).mpr ⟨c, hbelow⟩
        exact ⟨(mem_files?_iff hfiles).mpr ⟨hfile, hparent⟩, hschema⟩
      | cons next rest =>
        right
        have hchild : directory.child c ∈ directories :=
          (mem_directories?_iff hdirectories).mpr ⟨c, mem_steps hfile hbelow, rfl⟩
        have hmem : tree.walk (directory.child c) ∈ deeper.map .ok :=
          hdeeper ▸ List.mem_map_of_mem hchild
        obtain ⟨found, hfound, hwalk⟩ := List.mem_map.mp hmem
        refine ⟨found, hfound, ih hwalk.symm (List.cons_ne_nil _ _) ?_⟩
        rw [hbelow, Path.child, List.append_assoc]
        rfl

/-- What is met below a step lies at least two steps below the directory. -/
theorem components_of_mem_walk_child {c : PathComponent}
    (h : tree.walk (directory.child c) = .ok paths) (hpath : path ∈ paths) :
    ∃ next rest, path.components = directory.components ++ c :: next :: rest := by
  obtain ⟨-, -, below, hne, hbelow⟩ := (mem_walk_iff h).mp hpath
  obtain ⟨next, rest, rfl⟩ := List.exists_cons_of_ne_nil hne
  refine ⟨next, rest, ?_⟩
  rw [hbelow, Path.child, List.append_assoc]
  rfl

/-- A walk meets no path twice in a tree whose files have different paths. -/
theorem pairwise_walk
    (htree : tree.files.Pairwise fun f g => f.path.components ≠ g.path.components)
    (h : tree.walk directory = .ok paths) :
    paths.Pairwise fun a b => a.components ≠ b.components := by
  induction hdepth : tree.depth - directory.components.length using Nat.strongRecOn
    generalizing directory paths with
  | _ remaining ih =>
  subst hdepth
  obtain ⟨files, directories, deeper, hfiles, hdirectories, hdeeper, rfl⟩ := walk_eq_ok_iff.mp h
  have hchild : ∀ found ∈ deeper, ∃ c, directory.child c ∈ directories ∧
      tree.walk (directory.child c) = .ok found := by
    intro found hfound
    have hmem : .ok found ∈ directories.map tree.walk := hdeeper ▸ List.mem_map_of_mem hfound
    obtain ⟨d, hd, hwalk⟩ := List.mem_map.mp hmem
    obtain ⟨c, -, rfl⟩ := (mem_directories?_iff hdirectories).mp hd
    exact ⟨c, hd, hwalk⟩
  refine List.pairwise_append.mpr ⟨?_, List.pairwise_flatten.mpr ⟨?_, ?_⟩, ?_⟩
  · have hpaths : (tree.files.map StoredFile.path).Pairwise
        fun a b => a.components ≠ b.components := List.pairwise_map.mpr htree
    rw [files?_eq_ok hfiles]
    exact (hpaths.filter _).filter _
  · intro found hfound
    obtain ⟨c, hc, hwalk⟩ := hchild found hfound
    have hlength := mem_directories_length hdirectories hc
    exact ih _ (by omega) hwalk rfl
  · -- Two directories are reached by different steps, which all paths below them begin with.
    have hapart : (directories.map tree.walk).Pairwise fun first second =>
        ∀ found other, first = .ok found → second = .ok other →
          ∀ a ∈ found, ∀ b ∈ other, a.components ≠ b.components := by
      rw [directories?_eq_ok hdirectories, List.map_map, List.pairwise_map]
      refine (tree.nodup_steps directory.components).imp ?_
      intro c d hne found other hfound hother a ha b hb hsame
      obtain ⟨_, _, hfirst⟩ := components_of_mem_walk_child hfound ha
      obtain ⟨_, _, hsecond⟩ := components_of_mem_walk_child hother hb
      rw [hfirst, hsecond] at hsame
      exact hne (List.cons_eq_cons.mp (List.append_cancel_left hsame)).1
    rw [hdeeper, List.pairwise_map] at hapart
    exact hapart.imp fun hfound => hfound _ _ rfl rfl
  · intro a ha b hb hsame
    obtain ⟨ha, hschema⟩ := List.mem_filter.mp ha
    have hname := SourceFile.fileName?_isSome_of_isSchemaFile hschema
    obtain ⟨last, hlast⟩ :=
      (Path.parent?_eq_some_iff hname).mp ((mem_files?_iff hfiles).mp ha).2
    obtain ⟨found, hfound, hb⟩ := List.mem_flatten.mp hb
    obtain ⟨c, -, hwalk⟩ := hchild found hfound
    obtain ⟨next, rest, hbelow⟩ := components_of_mem_walk_child hwalk hb
    rw [hlast, hbelow] at hsame
    simpa using List.append_cancel_left hsame

/-- A directory that is listed is one. -/
theorem isDirectory_of_mem_directories? (h : tree.directories? directory = .ok paths)
    (hpath : path ∈ paths) : tree.isDirectory path = true := by
  obtain ⟨c, hc, rfl⟩ := (mem_directories?_iff h).mp hpath
  have hbegins : ∀ {components rest : List PathComponent},
      dropBeginning? directory.components components = some (c :: rest) →
        dropBeginning? (directory.child c).components components = some rest := by
    intro components rest hrest
    rw [dropBeginning?_eq_some_iff] at hrest ⊢
    rw [hrest, Path.child, List.append_assoc]
    rfl
  rw [steps, mem_foldr_insertComponent, List.mem_append, List.mem_filterMap,
    List.mem_filterMap] at hc
  unfold isDirectory
  rw [Bool.or_eq_true, List.any_eq_true, List.any_eq_true]
  rcases hc with ⟨f, hf, hstep⟩ | ⟨d, hd, hstep⟩
  · refine Or.inl ⟨f, hf, ?_⟩
    unfold stepToFile? at hstep
    split at hstep
    · next next rest hrelative =>
      cases hstep
      have hbelow := hbegins hrelative
      have hlonger := dropBeginning?_eq_some_iff.mp hbelow
      rw [Bool.and_eq_true, startsWith, hbelow, hlonger]
      exact ⟨rfl, by simp⟩
    · cases hstep
  · refine Or.inr ⟨d, hd, ?_⟩
    unfold stepToFolder? at hstep
    split at hstep
    · next rest hrelative =>
      cases hstep
      rw [startsWith, hbegins hrelative]
      rfl
    · cases hstep

/-- A walk from a directory of a tree without faults succeeds. -/
theorem exists_walk (hfaults : tree.faults = []) (hdirectory : tree.isDirectory directory = true) :
    ∃ paths, tree.walk directory = .ok paths := by
  induction hdepth : tree.depth - directory.components.length using Nat.strongRecOn
    generalizing directory with
  | _ remaining ih =>
  subst hdepth
  have hfault : ∀ access path, tree.fault? access path = none := by
    intro access path
    rw [fault?, hfaults]
    rfl
  obtain ⟨files, hfiles⟩ : ∃ files, tree.files? directory = .ok files := by
    rw [files?, hfault, if_pos hdirectory]
    exact ⟨_, rfl⟩
  obtain ⟨below, hbelow⟩ : ∃ below, tree.directories? directory = .ok below := by
    rw [directories?, hfault, if_pos hdirectory]
    exact ⟨_, rfl⟩
  have hwalks : ∀ d ∈ below, ∃ found, tree.walk d = .ok found := by
    intro d hd
    have hlength := mem_directories_length hbelow hd
    exact ih _ (by omega) (isDirectory_of_mem_directories? hbelow hd) rfl
  obtain ⟨deeper, hdeeper⟩ := exists_mapM_eq_ok hwalks
  exact ⟨_, walk_eq_ok_iff.mpr
    ⟨files, below, deeper, hfiles, hbelow, mapM_eq_ok_iff.mp hdeeper, rfl⟩⟩

end FileTree

end BusSchema
