import BusSchema.Proofs.Files.Walk
import BusSchema.Proofs.Schema.Triple
import Mathlib.Data.List.Induction

/-!
# The file that stands for a name

Several files of a tree may define one name, by different versions or subject ids, or because
directories with points in their names spell the same namespace.  Loading a tree selects the first
file with the highest version of those that the walk meets (`kept_foldl_keepLatest`).  A reference
looks into one directory only and takes the last file with the highest version there, so it leads to
a file that the walk meets (`mem_of_located`) and that has the version of the selected file if that
one lies in the same directory (`version_eq_of_located`).
-/

namespace BusSchema

/-! ## Versions -/

namespace Version

theorem le_iff {a b : Version} :
    a.le b = true ↔ a.major < b.major ∨ a.major = b.major ∧ a.minor ≤ b.minor := by
  simp [le]

theorem le_refl (a : Version) : a.le a = true := le_iff.mpr (Or.inr ⟨rfl, Nat.le_refl _⟩)

theorem le_trans {a b c : Version} (hab : a.le b = true) (hbc : b.le c = true) :
    a.le c = true := by
  rw [le_iff] at hab hbc ⊢
  omega

theorem le_total (a b : Version) : a.le b = true ∨ b.le a = true := by
  rw [le_iff, le_iff]
  omega

theorem le_antisymm {a b : Version} (hab : a.le b = true) (hba : b.le a = true) : a = b := by
  rw [le_iff] at hab hba
  have hmajor : a.major = b.major := by omega
  have hminor : a.minor = b.minor := by omega
  cases a
  cases b
  rw [mk.injEq]
  exact ⟨hmajor, hminor⟩

end Version

/-! ## Selection -/

/-- The first source with the highest version of those that define its name. -/
def Selected (sources : List SourceFile) (s : SourceFile) : Prop :=
  ∃ before after, sources = before ++ s :: after ∧
    (∀ a ∈ before, a.name = s.name → s.header.version.le a.header.version = false) ∧
    ∀ a ∈ after, a.name = s.name → a.header.version.le s.header.version = true

namespace Selected

variable {sources : List SourceFile} {s : SourceFile}

theorem mem (h : Selected sources s) : s ∈ sources := by
  obtain ⟨before, after, rfl, -, -⟩ := h
  exact List.mem_append_right before List.mem_cons_self

/-- No source of the name has a higher version. -/
theorem le (h : Selected sources s) {a : SourceFile} (ha : a ∈ sources) (hname : a.name = s.name) :
    a.header.version.le s.header.version = true := by
  obtain ⟨before, after, rfl, hbefore, hafter⟩ := h
  rcases List.mem_append.mp ha with ha | ha
  · have hlower := hbefore a ha hname
    exact (Version.le_total _ _).resolve_right (by rw [hlower]; exact Bool.false_ne_true)
  · rcases List.mem_cons.mp ha with rfl | ha
    · exact Version.le_refl _
    · exact hafter a ha hname

/-- A source stays selected if another one behind it has no higher version. -/
theorem concat (h : Selected sources s) {next : SourceFile}
    (hnext : next.name = s.name → next.header.version.le s.header.version = true) :
    Selected (sources ++ [next]) s := by
  obtain ⟨before, after, rfl, hbefore, hafter⟩ := h
  refine ⟨before, after ++ [next], by rw [List.append_assoc, List.cons_append], hbefore, ?_⟩
  intro a ha
  rcases List.mem_append.mp ha with ha | ha
  · exact hafter a ha
  · rw [List.mem_singleton.mp ha]
    exact hnext

/-- A source with a higher version than all before it is selected. -/
theorem last (h : ∀ a ∈ sources, a.name = s.name → s.header.version.le a.header.version = false) :
    Selected (sources ++ [s]) s :=
  ⟨sources, [], rfl, h, fun _ ha => (nomatch ha)⟩

end Selected

/-- A list of selected sources, with one for each name of all sources. -/
structure Kept (sources kept : List SourceFile) : Prop where
  selected : ∀ k ∈ kept, Selected sources k
  covers : ∀ s ∈ sources, ∃ k ∈ kept, k.name = s.name

theorem Kept.concat {sources kept : List SourceFile} (h : Kept sources kept) (next : SourceFile) :
    Kept (sources ++ [next]) (keepLatest kept next) := by
  unfold keepLatest
  split
  · next htaken =>
    -- A source takes the place of one with the same name.
    have hcovered : ∀ k ∈ kept, ∃ k' ∈ kept.map fun k =>
        if k.name = next.name ∧ !next.header.version.le k.header.version then next else k,
        k'.name = k.name := by
      intro k hk
      refine ⟨_, List.mem_map_of_mem hk, ?_⟩
      split
      · next hreplaced => exact hreplaced.1.symm
      · rfl
    refine ⟨?_, ?_⟩
    · intro k hk
      obtain ⟨old, hold, rfl⟩ := List.mem_map.mp hk
      have hselected := h.selected old hold
      split
      · next hreplaced =>
        -- The next source has a higher version than the one selected so far, and so than all.
        refine Selected.last fun a ha hname => ?_
        have hle := hselected.le ha (hname.trans hreplaced.1.symm)
        by_contra hnot
        have hlower := Version.le_trans (by simpa using hnot) hle
        simp [hlower] at hreplaced
      · next hkept =>
        refine hselected.concat fun hname => ?_
        by_contra hnot
        exact hkept ⟨hname.symm, by simpa using hnot⟩
    · intro s hs
      have hearlier : ∃ k ∈ kept, k.name = s.name := by
        rcases List.mem_append.mp hs with hs | hs
        · exact h.covers s hs
        · rw [List.mem_singleton.mp hs]
          simpa using htaken
      obtain ⟨k, hk, hname⟩ := hearlier
      obtain ⟨k', hk', hname'⟩ := hcovered k hk
      exact ⟨k', hk', hname'.trans hname⟩
  · next hnew =>
    have hother : ∀ s ∈ sources, s.name ≠ next.name := by
      intro s hs hname
      obtain ⟨k, hk, hkname⟩ := h.covers s hs
      exact hnew (List.any_eq_true.mpr ⟨k, hk, by simpa using hkname.trans hname⟩)
    refine ⟨?_, ?_⟩
    · intro k hk
      rcases List.mem_append.mp hk with hk | hk
      · have hselected := h.selected k hk
        exact hselected.concat fun hname => absurd hname.symm (hother k hselected.mem)
      · rw [List.mem_singleton.mp hk]
        exact Selected.last fun a ha hname => absurd hname (hother a ha)
    · intro s hs
      rcases List.mem_append.mp hs with hs | hs
      · obtain ⟨k, hk, hname⟩ := h.covers s hs
        exact ⟨k, List.mem_append_left _ hk, hname⟩
      · exact ⟨s, List.mem_append_right _ hs, rfl⟩

/-- Loading a tree keeps the selected source of each name. -/
theorem kept_foldl_keepLatest (sources : List SourceFile) :
    Kept sources (sources.foldl keepLatest []) := by
  induction sources using List.reverseRecOn with
  | nil => exact ⟨fun _ hk => (nomatch hk), fun _ hs => (nomatch hs)⟩
  | append_singleton sources next ih =>
    rw [List.foldl_append]
    exact ih.concat next

/-- The schema files that the walk through a tree meets, in its order. -/
def collect (tree : FileTree) (root : Path) : Except SchemaError (List SourceFile) := do
  (← tree.walk root).mapM (SourceFile.ofPath root)

theorem Load.selectSources_eq (tree : FileTree) (root : Path) :
    Load.selectSources tree root =
      (collect tree root).map fun sources => sources.foldl keepLatest [] := by
  unfold Load.selectSources collect
  cases tree.walk root with
  | error e => rfl
  | ok paths =>
    cases hsources : paths.mapM (SourceFile.ofPath root) with
    | error e => simp [bind, Except.bind, Except.map, hsources]
    | ok sources => simp [bind, Except.bind, Except.map, pure, Except.pure, hsources]

/-! ## Sources and their paths -/

namespace SourceFile

variable {root path : Path} {s : SourceFile}

theorem ofPath_eq_ok (h : ofPath root path = .ok s) :
    s.path = path ∧ ∃ below, path.components = root.components ++ below ∧
      s.nameSpace = Text.join "." (Path.names below.dropLast) := by
  have hdescribe := mapError_eq_ok_iff.mp h
  unfold describe at hdescribe
  split at hdescribe
  · cases hdescribe
  split at hdescribe
  · cases hdescribe
  obtain ⟨nameSpace, hnameSpace, rfl⟩ := map_eq_ok_iff.mp hdescribe
  unfold nameSpaceOf at hnameSpace
  split at hnameSpace
  · cases hnameSpace
  next below hbelow =>
  cases hnameSpace
  exact ⟨rfl, below, dropBeginning?_eq_some_iff.mp hbelow, rfl⟩

/-- The header is read from the base name. -/
theorem header_of_ofPath (h : ofPath root path = .ok s) :
    ∃ basename, path.fileName? = some basename ∧ FileName.read basename = .ok s.header := by
  have hdescribe := mapError_eq_ok_iff.mp h
  unfold describe at hdescribe
  split at hdescribe
  · cases hdescribe
  next basename hbasename =>
  split at hdescribe
  · cases hdescribe
  next header hheader =>
  obtain ⟨nameSpace, -, rfl⟩ := map_eq_ok_iff.mp hdescribe
  exact ⟨basename, hbasename, hheader⟩

/-- The directory of a schema file below the root gives the namespace. -/
theorem parent?_of_ofPath (h : ofPath root path = .ok s) (hschema : isSchemaFile path = true)
    (hne : path.components ≠ root.components) :
    ∃ front, path.parent? = some (root.components ++ front) ∧
      s.nameSpace = Text.join "." (Path.names front) := by
  obtain ⟨-, below, hbelow, hnameSpace⟩ := ofPath_eq_ok h
  rcases List.eq_nil_or_concat below with rfl | ⟨front, last, rfl⟩
  · exact absurd (by simpa using hbelow) hne
  · rw [List.concat_eq_append] at hbelow hnameSpace
    rw [List.dropLast_concat] at hnameSpace
    refine ⟨front, ?_, hnameSpace⟩
    rw [Path.parent?_eq_some_iff (fileName?_isSome_of_isSchemaFile hschema)]
    exact ⟨last, by rw [hbelow, List.append_assoc]⟩

end SourceFile

theorem FileTree.mem_sources_iff {tree : FileTree} {root : Path} {s : SourceFile} :
    s ∈ tree.sources root ↔
      s.path ∈ tree.files.map StoredFile.path ∧ SourceFile.ofPath root s.path = .ok s := by
  unfold FileTree.sources
  rw [List.mem_filterMap, List.mem_map]
  constructor
  · rintro ⟨f, hf, hsource⟩
    have hof := toOption_eq_some_iff.mp hsource
    have hpath := (SourceFile.ofPath_eq_ok hof).1
    exact ⟨⟨f, hf, hpath.symm⟩, by rwa [hpath]⟩
  · rintro ⟨⟨f, hf, hpath⟩, hof⟩
    exact ⟨f, hf, toOption_eq_some_iff.mpr (by rwa [hpath])⟩

theorem qualify_inj_right {nameSpace a b : String} (h : qualify nameSpace a = qualify nameSpace b) :
    a = b := by
  unfold qualify at h
  split at h
  · exact h
  · have hlist := congrArg String.toList h
    simp only [String.toList_append] at hlist
    exact String.toList_inj.mp (List.append_cancel_left hlist)

/-- The walk meets a schema file below the root. -/
theorem mem_collect_iff {tree : FileTree} {root : Path} {sources : List SourceFile}
    (h : collect tree root = .ok sources) {s : SourceFile} :
    s ∈ sources ↔ s.path ∈ tree.files.map StoredFile.path ∧
      SourceFile.isSchemaFile s.path = true ∧ s.path.components ≠ root.components ∧
      SourceFile.ofPath root s.path = .ok s := by
  obtain ⟨paths, hwalk, hsources⟩ := bind_eq_ok_iff.mp h
  constructor
  · intro hs
    obtain ⟨path, hpath, hof⟩ := exists_of_mapM_of_mem_result hsources hs
    obtain ⟨rfl, -⟩ := SourceFile.ofPath_eq_ok hof
    obtain ⟨hfile, hschema, below, hne, hbelow⟩ := (FileTree.mem_walk_iff hwalk).mp hpath
    refine ⟨hfile, hschema, ?_, hof⟩
    rw [hbelow]
    simpa using hne
  · rintro ⟨hfile, hschema, hne, hof⟩
    obtain ⟨-, below, hbelow, -⟩ := SourceFile.ofPath_eq_ok hof
    have hpath : s.path ∈ paths := by
      refine (FileTree.mem_walk_iff hwalk).mpr ⟨hfile, hschema, below, ?_, hbelow⟩
      rintro rfl
      exact hne (by simpa using hbelow)
    obtain ⟨other, hother, hsame⟩ := exists_of_mapM_of_mem hsources hpath
    cases hof.symm.trans hsame
    exact hother

/-! ## Files behind references -/

theorem latest?_concat (sources : List SourceFile) (s : SourceFile) :
    latest? (sources ++ [s]) =
      match latest? sources with
      | none => some s
      | some best => if best.header.version.le s.header.version then some s else some best := by
  rw [latest?, List.foldl_append]
  rfl

theorem latest?_eq_none_iff {sources : List SourceFile} :
    latest? sources = none ↔ sources = [] := by
  induction sources using List.reverseRecOn with
  | nil => exact iff_of_true rfl rfl
  | append_singleton sources last _ =>
    refine iff_of_false ?_ (List.append_ne_nil_of_right_ne_nil _ (List.cons_ne_nil _ _))
    rw [latest?_concat]
    split
    · exact Option.some_ne_none _
    · split
      · exact Option.some_ne_none _
      · exact Option.some_ne_none _

/-- No source has a higher version than the latest one. -/
theorem le_latest? {sources : List SourceFile} {best : SourceFile}
    (h : latest? sources = some best) :
    ∀ s ∈ sources, s.header.version.le best.header.version = true := by
  induction sources using List.reverseRecOn generalizing best with
  | nil =>
    intro s hs
    cases hs
  | append_singleton sources last ih =>
    rw [latest?_concat] at h
    rw [List.forall_mem_append, List.forall_mem_singleton]
    split at h
    · next hnone =>
      cases h
      rw [latest?_eq_none_iff.mp hnone]
      exact ⟨fun _ hs => (nomatch hs), Version.le_refl _⟩
    · next earlier hearlier =>
      split at h
      · next hle =>
        cases h
        exact ⟨fun s hs => Version.le_trans (ih hearlier s hs) hle, Version.le_refl _⟩
      · next hnot =>
        cases h
        exact ⟨ih hearlier, (Version.le_total _ _).resolve_left hnot⟩

theorem mem_sourcesNamed {root : Path} {name : String} {paths : List Path} {s : SourceFile} :
    s ∈ sourcesNamed root name paths ↔ s.path ∈ paths ∧ SourceFile.isSchemaFile s.path = true ∧
      SourceFile.ofPath root s.path = .ok s ∧ s.header.name = name := by
  unfold sourcesNamed
  rw [List.mem_filterMap]
  constructor
  · rintro ⟨path, hpath, hsource⟩
    obtain ⟨hmem, hschema⟩ := List.mem_filter.mp hpath
    obtain ⟨hof, hname⟩ := Option.filter_eq_some_iff.mp hsource
    have hof : SourceFile.ofPath root path = .ok s := toOption_eq_some_iff.mp hof
    obtain ⟨rfl, -⟩ := SourceFile.ofPath_eq_ok hof
    exact ⟨hmem, hschema, hof, by simpa using hname⟩
  · rintro ⟨hmem, hschema, hof, hname⟩
    refine ⟨s.path, List.mem_filter.mpr ⟨hmem, hschema⟩, ?_⟩
    rw [hof]
    exact Option.filter_eq_some_iff.mpr ⟨rfl, by simpa using hname⟩

namespace Reference

variable {tree : FileTree} {root : Path} {reference : Reference} {text : String}
  {located : LineFault → SchemaError} {s : SourceFile}

/-- A reference takes the latest of the files of its name in one directory. -/
theorem locate_eq_ok (h : reference.locate tree root text located = .ok s) :
    ∃ paths, tree.files? (reference.directory root) = .ok paths ∧
      latest? (sourcesNamed root reference.name paths) = some s := by
  unfold locate at h
  dsimp only at h
  split at h
  · split at h
    · cases h
    next paths hpaths =>
    split at h
    · cases h
    next found hfound =>
    cases h
    exact ⟨paths, hpaths, hfound⟩
  · cases h

/-- The directory of a reference is below the root by its segments that hold something. -/
theorem components_directory (root : Path) (reference : Reference) :
    (reference.directory root).components =
      root.components ++ (reference.nameSpace.filter (· ≠ "")).map .name := by
  unfold directory
  induction reference.nameSpace generalizing root with
  | nil => exact (List.append_nil _).symm
  | cons segment rest ih =>
    rw [List.foldl_cons, ih, Path.segment]
    by_cases hempty : segment = ""
    · simp [hempty]
    · simp [hempty, Path.child]

/-- A schema file in the directory of a reference lies below the root. -/
theorem components_ne_root {path : Path} (hschema : SourceFile.isSchemaFile path = true)
    (hparent : path.parent? = some (reference.directory root).components) :
    path.components ≠ root.components := by
  have hname := SourceFile.fileName?_isSome_of_isSchemaFile hschema
  obtain ⟨last, hlast⟩ := (Path.parent?_eq_some_iff hname).mp hparent
  intro hroot
  have hlength := congrArg List.length (hlast.symm.trans hroot)
  rw [components_directory, List.length_append, List.length_append,
    List.length_singleton] at hlength
  omega

end Reference

namespace Load

variable {tree : FileTree} {root : Path} {s : SourceFile}

variable {sources : List SourceFile} (hsources : collect tree root = .ok sources)

include hsources

/-- A reference leads to a file that the walk meets. -/
theorem mem_of_located (h : Located tree root s) : s ∈ sources := by
  obtain ⟨_, _, reference, _, -, hlocate⟩ := h
  obtain ⟨paths, hpaths, hlatest⟩ := Reference.locate_eq_ok hlocate
  obtain ⟨hpath, hschema, hof, -⟩ := mem_sourcesNamed.mp (mem_of_latest? hlatest)
  obtain ⟨hfile, hparent⟩ := (FileTree.mem_files?_iff hpaths).mp hpath
  exact (mem_collect_iff hsources).mpr
    ⟨hfile, hschema, Reference.components_ne_root hschema hparent, hof⟩

/-- No file in the directory of a located one defines the same name by a higher version. -/
theorem le_of_located (h : Located tree root s) {other : SourceFile} (hother : other ∈ sources)
    (hname : other.name = s.name) (hparent : other.path.parent? = s.path.parent?) :
    other.header.version.le s.header.version = true := by
  have hs := mem_of_located hsources h
  obtain ⟨_, _, reference, _, -, hlocate⟩ := h
  obtain ⟨paths, hpaths, hlatest⟩ := Reference.locate_eq_ok hlocate
  refine le_latest? hlatest other ?_
  obtain ⟨hpath, -, -, hheader⟩ := mem_sourcesNamed.mp (mem_of_latest? hlatest)
  obtain ⟨-, hdirectory⟩ := (FileTree.mem_files?_iff hpaths).mp hpath
  obtain ⟨-, hschema, hbelow, hof⟩ := (mem_collect_iff hsources).mp hs
  obtain ⟨hotherFile, hotherSchema, hotherBelow, hotherOf⟩ := (mem_collect_iff hsources).mp hother
  refine mem_sourcesNamed.mpr ⟨?_, hotherSchema, hotherOf, ?_⟩
  · exact (FileTree.mem_files?_iff hpaths).mpr ⟨hotherFile, hparent.trans hdirectory⟩
  -- Files of one directory are in one namespace, so their names end in the same segment.
  obtain ⟨front, hfront, hnameSpace⟩ := SourceFile.parent?_of_ofPath hof hschema hbelow
  obtain ⟨otherFront, hotherFront, hotherNameSpace⟩ :=
    SourceFile.parent?_of_ofPath hotherOf hotherSchema hotherBelow
  have hfronts : otherFront = front := by
    rw [hotherFront, hfront, Option.some.injEq] at hparent
    exact List.append_cancel_left hparent
  have hsame : other.nameSpace = s.nameSpace := by
    rw [hotherNameSpace, hnameSpace, hfronts]
  rw [SourceFile.name, SourceFile.name, hsame] at hname
  rw [qualify_inj_right hname, hheader]

/-- A located file has the version of the selected one of its name if they lie together. -/
theorem version_eq_of_located (h : Located tree root s) {chosen : SourceFile}
    (hchosen : Selected sources chosen) (hname : chosen.name = s.name)
    (hparent : chosen.path.parent? = s.path.parent?) :
    s.header.version = chosen.header.version :=
  Version.le_antisymm (hchosen.le (mem_of_located hsources h) hname.symm)
    (le_of_located hsources h hchosen.mem hname hparent)

end Load

end BusSchema
