import BusSchema.Proofs.Schema.Replacement
import BusSchema.Proofs.Schema.Rereading

/-!
# Where definitions come from

A loaded tree has one definition for each name that a schema file below the root defines.  Each was
read from one of these files, and is what the file says when its references are looked up among the
definitions before it (`Load.ReadFrom`).

The file is the selected one of the name, unless a reference was the first to reach the name: then
it may be another file with the version of the selected one, or a file of another directory
(`Load.origin_of_ofTree`).  Neither is so in a tree in which the files of a name lie in one
directory and have different versions; where two files share a version, the two ways differ
(`Load.first_reached_by_reference`).
-/

namespace BusSchema

theorem Definition.Backward.of_isPrefix {earlier later : List Definition} (h : Backward later)
    (hfront : earlier <+: later) : Backward earlier := by
  intro i d hd
  refine h i d ?_
  rw [getElem?_of_isPrefix hfront (List.getElem?_eq_some_iff.mp hd).1, hd]

namespace TypeTable

/-- The table with the definitions before a position. -/
def before (table : TypeTable) (i : Nat) : TypeTable where
  definitions := table.definitions.take i
  spans := Span.measureAll (table.definitions.take i)
  distinct := table.distinct.sublist ((List.take_sublist i table.definitions).map _)
  backward := table.backward.of_isPrefix (List.take_prefix i table.definitions)

theorem Grows.before {a b : TypeTable} (hab : a.Grows b) {i : Nat} (hi : i ≤ a.size) :
    b.before i = a.before i := by
  obtain ⟨added, hadded⟩ := hab
  have htake : b.definitions.take i = a.definitions.take i := by
    rw [← hadded, List.take_append_of_le_length hi]
  exact eq_of_definitions htake

theorem before_size (table : TypeTable) : table.before table.size = table :=
  eq_of_definitions List.take_length

theorem grows_before (table : TypeTable) (i : Nat) : (table.before i).Grows table :=
  List.take_prefix i table.definitions

theorem getElem?_before {table : TypeTable} {i k : Nat} {d : Definition}
    (h : (table.before i).definitions[k]? = some d) :
    k < i ∧ table.definitions[k]? = some d := by
  have hlength := (List.getElem?_eq_some_iff.mp h).1
  exact ⟨Nat.lt_of_lt_of_le hlength (List.length_take_le i table.definitions),
    (grows_before table i).getElem? h⟩

theorem Grows.contains {a b : TypeTable} (hab : a.Grows b) {name : String}
    (h : a.contains name = true) : b.contains name = true := by
  obtain ⟨i, hi⟩ := Option.isSome_iff_exists.mp h
  rw [TypeTable.contains, hab.find? hi]
  rfl

/-- Something holds of every definition and the table of those before it. -/
def Each (holds : Definition → TypeTable → Prop) (table : TypeTable) : Prop :=
  ∀ i d, table.definitions[i]? = some d → holds d (table.before i)

theorem each_empty (holds : Definition → TypeTable → Prop) : Each holds {} := by
  intro i d hd
  cases hd

theorem Each.push {holds : Definition → TypeTable → Prop} {table : TypeTable} {d : Definition}
    (htable : table.Each holds) (hd : holds d table) (haccepts : table.Accepts d) :
    (table.push d haccepts).2.Each holds := by
  have hgrows := grows_push haccepts
  intro i other hother
  rcases getElem?_push hother with hearlier | ⟨rfl, rfl⟩
  · rw [hgrows.before (Nat.le_of_lt (List.getElem?_eq_some_iff.mp hearlier).1)]
    exact htable i other hearlier
  · rw [hgrows.before (Nat.le_refl _), before_size]
    exact hd

end TypeTable

namespace Load

variable {tree : FileTree} {root : Path} {good : SourceFile → Prop}

/--
The definition is what the file says in a table that holds all that the file refers to, so that
reading it adds nothing.
-/
def ReadFrom (tree : FileTree) (root : Path) (s : SourceFile) (d : Definition)
    (table : TypeTable) : Prop :=
  ∃ text, tree.read? s.path = .ok text ∧
    (elaborateText (lookup tree root s) s text).run table = (.ok d, table)

theorem ReadFrom.header {s : SourceFile} {d : Definition} {table : TypeTable}
    (h : ReadFrom tree root s d table) :
    d.subjectId = s.header.subjectId ∧ d.version = s.header.version := by
  obtain ⟨text, -, hrun⟩ := h
  obtain ⟨draft, -, rfl⟩ := elaborateText_eq_ok hrun
  exact ⟨rfl, rfl⟩

/-- Every definition was read from a good file of its name, behind those before it. -/
def Sourced (tree : FileTree) (root : Path) (good : SourceFile → Prop) (table : TypeTable) :
    Prop :=
  ∀ i d, table.definitions[i]? = some d →
    ∃ s, good s ∧ s.name = d.name ∧ ReadFrom tree root s d (table.before i)

theorem sourced_empty (tree : FileTree) (root : Path) (good : SourceFile → Prop) :
    Sourced tree root good {} :=
  TypeTable.each_empty fun d table => ∃ s, good s ∧ s.name = d.name ∧ ReadFrom tree root s d table

/--
Something holds of every definition and those before it, if it holds of what a file says in a table
that holds all that the file refers to.
-/
theorem chainInvariant_each {readable : SourceFile → String → Prop}
    (holds : Definition → TypeTable → Prop)
    (hlocated : ∀ target text, Located tree root target → tree.read? target.path = .ok text →
      readable target text)
    (hholds : ∀ source text d table, readable source text → source.name = d.name →
      (elaborateText (lookup tree root source) source text).run table = (.ok d, table) →
      holds d table) :
    ChainInvariant tree root readable
      (fun chain table => Open chain table ∧ table.Each holds) where
  located := hlocated
  opens := fun chain name table hname hfree h =>
    ⟨(chainInvariant_open tree root).opens chain name table hname hfree h.1, h.2⟩
  closes := fun chain name table h =>
    ⟨(chainInvariant_open tree root).closes chain name table h.1, h.2⟩
  reads := by
    intro front source text hnew hreadable chain hresolve
    refine triple_of_start fun start hstart => ?_
    refine triple_conseq (triple_run (triple_elaborateText hresolve source text) hstart)
      (fun _ h => h) ?_ fun _ h => h
    rintro d table ⟨hrun, ⟨hopen, heach⟩, hvalid, hname⟩
    refine ⟨⟨hopen, heach⟩, fun haccepts => ⟨hopen.push hnew hvalid hname haccepts, ?_⟩⟩
    have hagain := run_lookup_of_run_resolver hstart.1 hrun
    exact heach.push (hholds source text d table hreadable hname.symm hagain) haccepts

/-- Reading good files keeps the origin of all definitions known. -/
theorem chainInvariant_sourced (hgood : ∀ s, Located tree root s → good s) :
    ChainInvariant tree root (fun s text => good s ∧ tree.read? s.path = .ok text)
      (fun chain table => Open chain table ∧ Sourced tree root good table) :=
  chainInvariant_each (fun d table => ∃ s, good s ∧ s.name = d.name ∧ ReadFrom tree root s d table)
    (fun target _ hlocated hread => ⟨hgood target hlocated, hread⟩)
    fun source text _ _ hreadable hname hrun =>
      ⟨source, hreadable.1, hname, text, hreadable.2, hrun⟩

/-! ## Whole trees -/

theorem contains_of_loadSource {source : SourceFile} {table after : TypeTable}
    (h : (loadSource tree root source).run table = (.ok (), after)) :
    after.contains source.name = true := by
  unfold loadSource loadSourceWith at h
  rw [run_get_bind] at h
  split at h
  · next hcontains =>
    cases h
    exact hcontains
  obtain ⟨text, middle, -, hrest⟩ := run_bind_eq_ok h
  obtain ⟨id, loaded, hload, hlast⟩ := run_bind_eq_ok hrest
  cases hlast
  rw [TypeTable.contains, find?_of_loadNew hload]
  rfl

/-- The file is one that a tree is loaded from: a selected one, or one behind a reference. -/
def Origin (tree : FileTree) (root : Path) (s : SourceFile) : Prop :=
  (∃ sources, selectSources tree root = .ok sources ∧ s ∈ sources) ∨ Located tree root s

/-- Loading the selected files reads each definition from an origin, and leaves out no name. -/
theorem triple_loadSelected_origin {kept : List SourceFile}
    (hkept : selectSources tree root = .ok kept) :
    Triple (fun table => Open [] table ∧ Sourced tree root (Origin tree root) table)
      (loadSelected tree root)
      (fun _ table => (Open [] table ∧ Sourced tree root (Origin tree root) table) ∧
        ∀ s ∈ kept, table.contains s.name = true)
      (fun table => Open [] table ∧ Sourced tree root (Origin tree root) table) := by
  have hinv : ChainInvariant tree root
      (fun s text => Origin tree root s ∧ tree.read? s.path = .ok text)
      (fun chain table => Open chain table ∧ Sourced tree root (Origin tree root) table) :=
    chainInvariant_sourced fun s hs => Or.inr hs
  unfold loadSelected loadSelectedWith
  rw [hkept]
  refine triple_forM (fun s a b hab hs => hab.contains hs) fun s hs => ?_
  have hsource := triple_loadSource hinv fun text htext => ⟨Or.inl ⟨kept, hkept, hs⟩, htext⟩
  refine triple_of_start fun start hstart => ?_
  exact triple_conseq (triple_run hsource hstart) (fun _ h => h)
    (fun _ table h => ⟨h.2, contains_of_loadSource h.1⟩) fun _ h => h

theorem run_loadSelected_of_ofTree {table : TypeTable}
    (h : TypeTable.ofTree tree root = .ok table) :
    (loadSelected tree root).run {} = (.ok (), table) := by
  unfold TypeTable.ofTree at h
  split at h
  · next loaded hload =>
    cases h
    cases hroot : tree.isDirectory root with
    | true =>
      rcases run_loadAll_of_isDirectory hroot {} with
        ⟨after, hselected, hrun⟩ | ⟨e, left, -, hrun⟩
      · rw [hrun] at hload
        cases hload
        exact hselected
      · rw [hrun] at hload
        cases hload
    | false =>
      rw [run_loadAll_of_not_isDirectory hroot] at hload
      cases hload
  · cases h

/-- The table of a tree holds the definitions of all names, each read from an origin. -/
theorem sourced_of_ofTree {table : TypeTable} (h : TypeTable.ofTree tree root = .ok table) :
    ∃ sources, collect tree root = .ok sources ∧ Sourced tree root (Origin tree root) table ∧
      ∀ s ∈ sources, table.contains s.name = true := by
  have hrun := run_loadSelected_of_ofTree h
  cases hselect : selectSources tree root with
  | error e =>
    unfold loadSelected loadSelectedWith at hrun
    rw [hselect] at hrun
    cases hrun
  | ok kept =>
  have hloaded := (triple_loadSelected_origin hselect {} ⟨open_empty, sourced_empty tree root _⟩).2
  rw [hrun] at hloaded
  obtain ⟨⟨-, hsourced⟩, hnames⟩ := hloaded
  rw [selectSources_eq] at hselect
  obtain ⟨sources, hsources, rfl⟩ := map_eq_ok_iff.mp hselect
  refine ⟨sources, hsources, hsourced, fun s hs => ?_⟩
  obtain ⟨k, hk, hname⟩ := (kept_foldl_keepLatest sources).covers s hs
  exact hname ▸ hnames k hk

/-- An origin is the selected file of its name, or a reference leads to it. -/
theorem Origin.selected_or_located {s : SourceFile} (h : Origin tree root s)
    {sources : List SourceFile} (hsources : collect tree root = .ok sources) :
    Selected sources s ∨ Located tree root s := by
  rcases h with ⟨kept, hkept, hs⟩ | hlocated
  · rw [selectSources_eq, hsources] at hkept
    cases hkept
    exact Or.inl ((kept_foldl_keepLatest sources).selected s hs)
  · exact Or.inr hlocated

theorem Origin.mem {s : SourceFile} (h : Origin tree root s) {sources : List SourceFile}
    (hsources : collect tree root = .ok sources) : s ∈ sources :=
  (h.selected_or_located hsources).elim Selected.mem (mem_of_located hsources)

/--
Each definition of a loaded tree was read from a file of its name: the selected one, or one behind a
reference that has the version of the selected one or lies in another directory.
-/
theorem origin_of_ofTree {table : TypeTable} (h : TypeTable.ofTree tree root = .ok table) :
    ∃ sources, collect tree root = .ok sources ∧
      (∀ name, table.contains name = true ↔ ∃ s ∈ sources, s.name = name) ∧
      ∀ i d, table.definitions[i]? = some d →
        ∃ chosen s, Selected sources chosen ∧ chosen.name = d.name ∧ s ∈ sources ∧
          s.name = d.name ∧ ReadFrom tree root s d (table.before i) ∧
          (s = chosen ∨ Located tree root s ∧ (s.header.version = chosen.header.version ∨
            s.path.parent? ≠ chosen.path.parent?)) := by
  obtain ⟨sources, hsources, hsourced, hnames⟩ := sourced_of_ofTree h
  refine ⟨sources, hsources, ?_, ?_⟩
  · intro name
    constructor
    · intro hcontains
      obtain ⟨d, hd, rfl⟩ := TypeTable.contains_iff.mp hcontains
      obtain ⟨i, hi⟩ := List.mem_iff_getElem?.mp hd
      obtain ⟨s, horigin, hname, -⟩ := hsourced i d hi
      exact ⟨s, horigin.mem hsources, hname⟩
    · rintro ⟨s, hs, rfl⟩
      exact hnames s hs
  · intro i d hd
    obtain ⟨s, horigin, hname, hread⟩ := hsourced i d hd
    have hs := horigin.mem hsources
    rcases horigin.selected_or_located hsources with hselected | hlocated
    · exact ⟨s, s, hselected, hname, hs, hname, hread, Or.inl rfl⟩
    · obtain ⟨hselected, hcovers⟩ := kept_foldl_keepLatest sources
      obtain ⟨chosen, hchosen, hsame⟩ := hcovers s hs
      refine ⟨chosen, s, hselected chosen hchosen, hsame.trans hname, hs, hname, hread,
        Or.inr ⟨hlocated, ?_⟩⟩
      by_cases hparent : s.path.parent? = chosen.path.parent?
      · exact Or.inl (version_eq_of_located hsources hlocated (hselected chosen hchosen) hsame
          hparent.symm)
      · exact Or.inr hparent

/-- A reference is the first to reach a name, and leads to the file with the highest version. -/
theorem origin_of_ofTree_two_versions :
    let root := Path.ofText "r"
    let tree := FileTree.ofTexts [("r/A.uavcan", "n.B b\n"), ("r/n/B.1.9.uavcan", "uint8 x\n"),
      ("r/n/B.2.0.uavcan", "uint16 x\n")]
    let chosen : SourceFile := ⟨Path.ofText "r/n/B.2.0.uavcan", ⟨"B", 0, ⟨2, 0⟩⟩, "n"⟩
    let table := ((loadAll tree root).run {}).2
    TypeTable.ofTree tree root = .ok table ∧
      ∃ d, table.definitions[0]? = some d ∧ d.name = "n.B" ∧
        ReadFrom tree root chosen d (table.before 0) := by
  intro root tree chosen table
  have htree : TypeTable.ofTree tree root = .ok table :=
    ofTree_of_loadAll_ok (by decide +kernel) (by decide +kernel)
  refine ⟨htree, ?_⟩
  have hfirst : (table.definitions[0]?).map (fun d => d.name) = some "n.B" := by decide +kernel
  obtain ⟨d, hd, hname⟩ := Option.map_eq_some_iff.mp hfirst
  refine ⟨d, hd, hname, ?_⟩
  obtain ⟨sources, hsources, -, horigin⟩ := origin_of_ofTree htree
  let other : SourceFile := ⟨Path.ofText "r/n/B.1.9.uavcan", ⟨"B", 0, ⟨1, 9⟩⟩, "n"⟩
  have hcollect : collect tree root =
      .ok [⟨Path.ofText "r/A.uavcan", ⟨"A", 0, {}⟩, ""⟩, other, chosen] := by decide +kernel
  obtain rfl := Except.ok.inj (hcollect.symm.trans hsources)
  obtain ⟨selected, s, hselected, hselectedName, hs, hsName, hread, hcase⟩ := horigin 0 d hd
  rw [hname] at hselectedName hsName
  have hchosen : selected = chosen := by
    have hmem := hselected.mem
    have hle := hselected.le (List.mem_of_getLast? rfl) (hselectedName.symm ▸ rfl)
    simp only [List.mem_cons, List.not_mem_nil, or_false] at hmem
    rcases hmem with rfl | rfl | rfl
    · exact absurd hselectedName (by decide +kernel)
    · exact absurd hle (by decide +kernel)
    · rfl
  rw [hchosen] at hcase
  rcases hcase with rfl | ⟨-, hdiffer⟩
  · exact hread
  · simp only [List.mem_cons, List.not_mem_nil, or_false] at hs
    rcases hs with rfl | rfl | rfl
    · exact absurd hsName (by decide +kernel)
    · exact absurd hdiffer (by decide +kernel)
    · exact hread

/-- A file is not the origin of a definition with another subject id or version. -/
theorem not_readFrom_of_first {chosen : SourceFile} {id : Nat} {version : Version}
    {table : TypeTable}
    (hfirst : (table.definitions[0]?).map (fun d => (d.name, d.subjectId, d.version)) =
      some (chosen.name, id, version))
    (hother : (id, version) ≠ (chosen.header.subjectId, chosen.header.version)) :
    ∃ d, table.definitions[0]? = some d ∧ d.name = chosen.name ∧
      ¬ReadFrom tree root chosen d (table.before 0) := by
  obtain ⟨d, hd, hheader⟩ := Option.map_eq_some_iff.mp hfirst
  rw [Prod.mk.injEq, Prod.mk.injEq] at hheader
  obtain ⟨hname, rfl, rfl⟩ := hheader
  refine ⟨d, hd, hname, fun hread => hother ?_⟩
  rw [hread.header.1, hread.header.2]

/-- Of two files with one version, the walk selects the first one and a reference takes the last. -/
theorem first_reached_by_reference :
    let root := Path.ofText "r"
    let tree := FileTree.ofTexts [("r/A.uavcan", "n.B b\n"), ("r/n/100.B.1.0.uavcan", "uint8 x\n"),
      ("r/n/200.B.1.0.uavcan", "uint16 x\n")]
    let table := ((loadAll tree root).run {}).2
    let file := fun path header nameSpace => (⟨Path.ofText path, header, nameSpace⟩ : SourceFile)
    let referring := file "r/A.uavcan" ⟨"A", 0, {}⟩ ""
    let chosen := file "r/n/100.B.1.0.uavcan" ⟨"B", 100, ⟨1, 0⟩⟩ "n"
    let last := file "r/n/200.B.1.0.uavcan" ⟨"B", 200, ⟨1, 0⟩⟩ "n"
    let sources := [referring, chosen, last]
    TypeTable.ofTree tree root = .ok table ∧ collect tree root = .ok sources ∧
      Selected sources chosen ∧
      ∃ d, table.definitions[0]? = some d ∧ d.name = chosen.name ∧
        ¬ReadFrom tree root chosen d (table.before 0) := by
  intro root tree table file referring chosen last sources
  refine ⟨ofTree_of_loadAll_ok (by decide +kernel) (by decide +kernel), by decide +kernel, ?_, ?_⟩
  · exact ⟨[referring], [last], rfl, by decide +kernel, by decide +kernel⟩
  · have hfirst : (table.definitions[0]?).map (fun d => (d.name, d.subjectId, d.version)) =
        some (chosen.name, 200, ⟨1, 0⟩) := by decide +kernel
    exact not_readFrom_of_first hfirst (by decide)

/-- A reference does not look into a directory with points in its name, where the walk does. -/
theorem first_reached_in_other_directory :
    let root := Path.ofText "r"
    let tree := FileTree.ofTexts [("r/A.uavcan", "m.n.B b\n"), ("r/m.n/B.2.0.uavcan", "uint8 x\n"),
      ("r/m/n/B.1.0.uavcan", "uint16 x\n")]
    let table := ((loadAll tree root).run {}).2
    let file := fun path header nameSpace => (⟨Path.ofText path, header, nameSpace⟩ : SourceFile)
    let chosen := file "r/m.n/B.2.0.uavcan" ⟨"B", 0, ⟨2, 0⟩⟩ "m.n"
    let referring := file "r/A.uavcan" ⟨"A", 0, {}⟩ ""
    let reached := file "r/m/n/B.1.0.uavcan" ⟨"B", 0, ⟨1, 0⟩⟩ "m.n"
    let before := [referring, reached]
    TypeTable.ofTree tree root = .ok table ∧ collect tree root = .ok (before ++ [chosen]) ∧
      Selected (before ++ [chosen]) chosen ∧
      ∃ d, table.definitions[0]? = some d ∧ d.name = chosen.name ∧
        ¬ReadFrom tree root chosen d (table.before 0) := by
  intro root tree table file chosen referring reached before
  refine ⟨ofTree_of_loadAll_ok (by decide +kernel) (by decide +kernel), by decide +kernel, ?_, ?_⟩
  · exact Selected.last (by decide +kernel)
  · have hfirst : (table.definitions[0]?).map (fun d => (d.name, d.subjectId, d.version)) =
        some (chosen.name, 0, ⟨1, 0⟩) := by decide +kernel
    exact not_readFrom_of_first hfirst (by decide)

end Load

end BusSchema
