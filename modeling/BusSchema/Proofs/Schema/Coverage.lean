import BusSchema.Proofs.Schema.Origin

/-!
# Which names a tree loads

A tree of texts is loaded as a whole: the walk meets every schema file below the root once and
nothing else, and the table holds one definition for each name that the path of such a file gives,
whichever of its files was read and whichever way the name was reached
(`Load.covers_of_loadAll`).
-/

namespace BusSchema

namespace Path

/-- The path is that of a schema file below a directory, at any depth. -/
def IsSchemaBelow (directory path : Path) : Prop :=
  SourceFile.isSchemaFile path = true ∧
    ∃ below, below ≠ [] ∧ path.components = directory.components ++ below

/--
The path gives a definition the name: the names of the directories below the root are its
namespace, and the base name ends it.
-/
def GivesName (root path : Path) (name : String) : Prop :=
  ∃ directories basename header,
    path.components = root.components ++ (directories ++ [.name basename]) ∧
      FileName.read basename = .ok header ∧
      name = qualify (Text.join "." (names directories)) header.name

/-- The name that a path gives is that of the source file at the path. -/
theorem givesName_iff {root path : Path} (hpath : root.IsSchemaBelow path) {name : String} :
    root.GivesName path name ↔ ∃ s, SourceFile.ofPath root path = .ok s ∧ s.name = name := by
  constructor
  · rintro ⟨directories, basename, header, hcomponents, hread, rfl⟩
    refine ⟨⟨path, header, Text.join "." (names directories)⟩, mapError_eq_ok_iff.mpr ?_, rfl⟩
    have hname : path.fileName? = some basename := by
      rw [fileName?, hcomponents, ← List.append_assoc, List.getLast?_concat]
    have hrelative : path.relativeTo? root.components =
        some (directories ++ [.name basename]) := dropBeginning?_eq_some_iff.mpr hcomponents
    simp only [SourceFile.describe, hname, hread, SourceFile.nameSpaceOf, hrelative,
      List.dropLast_concat]
    rfl
  · rintro ⟨s, hs, rfl⟩
    obtain ⟨basename, hname, hread⟩ := SourceFile.header_of_ofPath hs
    obtain ⟨-, below, hbelow, hnameSpace⟩ := SourceFile.ofPath_eq_ok hs
    obtain ⟨-, rest, hne, hrest⟩ := hpath
    rw [hbelow] at hrest
    obtain rfl := List.append_cancel_left hrest
    obtain ⟨directories, last, rfl⟩ := (List.eq_nil_or_concat below).resolve_left hne
    rw [List.concat_eq_append] at hbelow hnameSpace
    rw [List.dropLast_concat] at hnameSpace
    have hlast : last = .name basename := by
      rw [fileName?, hbelow, ← List.append_assoc, List.getLast?_concat] at hname
      cases last <;> simp_all
    refine ⟨directories, basename, s.header, hlast ▸ hbelow, hread, ?_⟩
    rw [SourceFile.name, hnameSpace]

theorem isSchemaBelow_congr {root a b : Path} (h : a.components = b.components) :
    root.IsSchemaBelow a ↔ root.IsSchemaBelow b := by
  unfold IsSchemaBelow SourceFile.isSchemaFile extension? fileName?
  rw [h]

theorem givesName_congr {root a b : Path} (h : a.components = b.components) {name : String} :
    root.GivesName a name ↔ root.GivesName b name := by
  unfold GivesName
  rw [h]

end Path

namespace FileTree

variable {texts : List (String × String)} {root path : Path}

/-- A file of a tree of texts has the components of the path of a text. -/
theorem exists_text_of_mem (hpath : path ∈ (ofTexts texts).files.map StoredFile.path) :
    ∃ entry ∈ texts, (Path.ofText entry.1).components = path.components := by
  obtain ⟨f, hf, rfl⟩ := List.mem_map.mp hpath
  exact exists_mem_ofTexts_iff.mp ⟨f, hf, rfl⟩

theorem exists_file_of_text {entry : String × String} (hentry : entry ∈ texts) :
    ∃ path ∈ (ofTexts texts).files.map StoredFile.path,
      path.components = (Path.ofText entry.1).components := by
  obtain ⟨f, hf, hsame⟩ := exists_mem_ofTexts_iff.mpr ⟨entry, hentry, rfl⟩
  exact ⟨f.path, List.mem_map_of_mem hf, hsame⟩

/-- In a tree of texts, the walk from a directory meets each schema file below it once. -/
theorem walk_ofTexts (hroot : (ofTexts texts).isDirectory root = true) :
    ∃ paths, (ofTexts texts).walk root = .ok paths ∧ (paths.map Path.components).Nodup ∧
      ∀ components, components ∈ paths.map Path.components ↔
        ∃ entry ∈ texts, (Path.ofText entry.1).components = components ∧
          root.IsSchemaBelow (Path.ofText entry.1) := by
  obtain ⟨paths, hwalk⟩ := exists_walk (faults_ofTexts texts) hroot
  have hapart := pairwise_walk (pairwise_ofTexts texts) hwalk
  refine ⟨paths, hwalk, List.pairwise_map.mpr hapart, fun components => ?_⟩
  rw [List.mem_map]
  constructor
  · rintro ⟨path, hpath, rfl⟩
    obtain ⟨hfile, hbelow⟩ := (mem_walk_iff hwalk).mp hpath
    obtain ⟨entry, hentry, hsame⟩ := exists_text_of_mem hfile
    exact ⟨entry, hentry, hsame, (Path.isSchemaBelow_congr hsame).mpr hbelow⟩
  · rintro ⟨entry, hentry, rfl, hbelow⟩
    obtain ⟨path, hfile, hsame⟩ := exists_file_of_text hentry
    exact ⟨path, (mem_walk_iff hwalk).mpr ⟨hfile, (Path.isSchemaBelow_congr hsame).mpr hbelow⟩,
      hsame⟩

end FileTree

/-- Every schema file below the root is among the collected ones. -/
theorem exists_source_of_collect {tree : FileTree} {root path : Path} {sources : List SourceFile}
    (h : collect tree root = .ok sources) (hfile : path ∈ tree.files.map StoredFile.path)
    (hbelow : root.IsSchemaBelow path) : ∃ s ∈ sources, SourceFile.ofPath root path = .ok s := by
  obtain ⟨paths, hwalk, hsources⟩ := bind_eq_ok_iff.mp h
  exact exists_of_mapM_of_mem hsources ((FileTree.mem_walk_iff hwalk).mpr ⟨hfile, hbelow⟩)

namespace Load

/-- The names of a loaded table are those of the collected files. -/
theorem mem_names_iff {tree : FileTree} {root : Path} {table : TypeTable}
    (h : TypeTable.ofTree tree root = .ok table) :
    ∃ sources, collect tree root = .ok sources ∧
      ∀ name, name ∈ table.definitions.map Definition.name ↔ ∃ s ∈ sources, s.name = name := by
  obtain ⟨sources, hsources, hsourced, hnames⟩ := sourced_of_ofTree h
  refine ⟨sources, hsources, fun name => ?_⟩
  constructor
  · intro hname
    obtain ⟨d, hd, rfl⟩ := List.mem_map.mp hname
    obtain ⟨i, hi⟩ := List.mem_iff_getElem?.mp hd
    obtain ⟨s, horigin, hname, -⟩ := hsourced i d hi
    exact ⟨s, horigin.mem hsources, hname⟩
  · rintro ⟨s, hs, rfl⟩
    exact List.mem_map.mpr (TypeTable.contains_iff.mp (hnames s hs))

/--
A tree of texts is covered by what is loaded from it.  From every directory the walk meets each
schema file below it once, and nothing else.  If the tree can be loaded, whatever was loaded before,
then every schema file below the root gives one name, and the table has one definition for each of
these names and no other.
-/
theorem covers_of_loadAll (texts : List (String × String)) (root : Path) :
    let tree := FileTree.ofTexts texts
    (tree.isDirectory root = true →
      ∃ paths, tree.walk root = .ok paths ∧ (paths.map Path.components).Nodup ∧
        ∀ components, components ∈ paths.map Path.components ↔
          ∃ entry ∈ texts, (Path.ofText entry.1).components = components ∧
            root.IsSchemaBelow (Path.ofText entry.1)) ∧
    ∀ before table, (loadAll tree root).run before = (.ok (), table) →
      tree.isDirectory root = true ∧
      (∀ entry ∈ texts, root.IsSchemaBelow (Path.ofText entry.1) →
        ∃! name, root.GivesName (Path.ofText entry.1) name) ∧
      (table.definitions.map Definition.name).Nodup ∧
      ∀ name, name ∈ table.definitions.map Definition.name ↔
        ∃ entry ∈ texts, root.IsSchemaBelow (Path.ofText entry.1) ∧
          root.GivesName (Path.ofText entry.1) name := by
  intro tree
  refine ⟨FileTree.walk_ofTexts, fun before table hload => ?_⟩
  have hroot : tree.isDirectory root = true := by
    by_contra hnot
    rw [run_loadAll_of_not_isDirectory (Bool.not_eq_true _ ▸ hnot)] at hload
    cases hload
  have htree : TypeTable.ofTree tree root = .ok table := by
    have hloaded := ofTree_of_loadAll_ok hroot (congrArg Prod.fst hload)
    rwa [hload] at hloaded
  obtain ⟨sources, hsources, hnames⟩ := mem_names_iff htree
  -- A text's path is spelled like that of a file up to what does not matter.
  have hsource : ∀ entry ∈ texts, root.IsSchemaBelow (Path.ofText entry.1) →
      ∃ s ∈ sources, ∀ name, root.GivesName (Path.ofText entry.1) name ↔ s.name = name := by
    intro entry hentry hbelow
    obtain ⟨path, hfile, hsame⟩ := FileTree.exists_file_of_text hentry
    have hbelow := (Path.isSchemaBelow_congr hsame).mpr hbelow
    obtain ⟨s, hs, hof⟩ := exists_source_of_collect hsources hfile hbelow
    refine ⟨s, hs, fun name => ?_⟩
    rw [← Path.givesName_congr hsame, Path.givesName_iff hbelow, hof]
    simp
  refine ⟨hroot, ?_, table.distinct, fun name => ?_⟩
  · intro entry hentry hbelow
    obtain ⟨s, -, hname⟩ := hsource entry hentry hbelow
    exact ⟨s.name, (hname _).mpr rfl, fun name hgiven => ((hname name).mp hgiven).symm⟩
  rw [hnames]
  constructor
  · rintro ⟨s, hs, rfl⟩
    obtain ⟨hfile, hschema, hne, hof⟩ := (mem_collect_iff hsources).mp hs
    obtain ⟨-, below, hcomponents, -⟩ := SourceFile.ofPath_eq_ok hof
    have hbelow : root.IsSchemaBelow s.path := by
      refine ⟨hschema, below, ?_, hcomponents⟩
      rintro rfl
      exact hne (by simpa using hcomponents)
    obtain ⟨entry, hentry, hsame⟩ := FileTree.exists_text_of_mem hfile
    exact ⟨entry, hentry, (Path.isSchemaBelow_congr hsame).mpr hbelow,
      (Path.givesName_congr hsame).mpr ((Path.givesName_iff hbelow).mpr ⟨s, hof, rfl⟩)⟩
  · rintro ⟨entry, hentry, hbelow, hgiven⟩
    obtain ⟨s, hs, hname⟩ := hsource entry hentry hbelow
    exact ⟨s, hs, (hname name).mp hgiven⟩

/-- A name with two versions, the first of which is reached by a reference. -/
theorem covers_of_loadAll_two_versions :
    let root := Path.ofText "r"
    let texts := [("r/A.uavcan", "n.B b\n"), ("r/n/B.1.0.uavcan", "uint8 x\n"),
      ("r/./n/B.2.0.uavcan", "uint16 x\n"), ("r/n/B.txt", ""), ("s/C.uavcan", "")]
    let tree := FileTree.ofTexts texts
    let table := ((loadAll tree root).run {}).2
    tree.isDirectory root = true ∧ (loadAll tree root).run {} = (.ok (), table) ∧
      (∃ paths, tree.walk root = .ok paths ∧ (paths.map Path.components).Nodup ∧
        (Path.ofText "r/n/B.2.0.uavcan").components ∈ paths.map Path.components) ∧
      (table.definitions.map Definition.name).Nodup ∧
      "n.B" ∈ table.definitions.map Definition.name := by
  intro root texts tree table
  have hroot : tree.isDirectory root = true := by decide +kernel
  have hresult : ((loadAll tree root).run {}).1 = .ok () := by decide +kernel
  have hload : (loadAll tree root).run {} = (.ok (), table) := Prod.ext hresult rfl
  have hfile : ("r/./n/B.2.0.uavcan", "uint16 x\n") ∈ texts := by simp [texts]
  have hbelow : root.IsSchemaBelow (Path.ofText "r/./n/B.2.0.uavcan") :=
    ⟨by decide +kernel, [.name "n", .name "B.2.0.uavcan"], List.cons_ne_nil _ _, by decide +kernel⟩
  have hname : root.GivesName (Path.ofText "r/./n/B.2.0.uavcan") "n.B" :=
    ⟨[.name "n"], "B.2.0.uavcan", ⟨"B", 0, ⟨2, 0⟩⟩, by decide +kernel, by decide +kernel,
      by decide +kernel⟩
  obtain ⟨hwalk, htable⟩ := covers_of_loadAll texts root
  obtain ⟨paths, hpaths, honce, hmet⟩ := hwalk hroot
  obtain ⟨-, -, hnodup, hnames⟩ := htable {} table hload
  exact ⟨hroot, hload, ⟨paths, hpaths, honce, (hmet _).mpr ⟨_, hfile, by decide +kernel, hbelow⟩⟩,
    hnodup, (hnames "n.B").mpr ⟨_, hfile, hbelow, hname⟩⟩

end Load

end BusSchema
