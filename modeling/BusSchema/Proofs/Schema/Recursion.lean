import BusSchema.Proofs.Layout.Lengths
import BusSchema.Proofs.Schema.References
import Mathlib.Data.List.Chain
import Mathlib.Data.List.Dedup

/-!
# Recursive references

Reading a file makes the files behind its references be read first, and the names that are being
read at a time form a chain.  A loader that stops at a chain with a repeated name, or with more
names than the tree has, never stops there (`Load.definitionWithin_eq`), so every chain is
repetition-free and no deeper than that.

A chain is reported as recursive only if each of its files refers to the next one and the last one
to a name of the chain (`Load.descent_of_loadAll`).  If a tree is loaded, each reference of a
definition, and of the file that it was read from, leads to a definition before it; so the loaded
definitions do not refer to each other in a cycle (`Load.recursion_of_loadAll`).
-/

namespace BusSchema

/-! ## Loading within a number of names -/

namespace Load

variable {tree : FileTree} {root : Path}

/--
Reads the definition in a text like `loadDefinition`, but raises the alarm when a name is on the
chain twice, or when files would have to be read deeper than there is room for.
-/
def definitionWithin (alarm : SchemaError) (tree : FileTree) (root : Path) : Nat → Reader
  | 0, _, _, _ => throw alarm
  | room + 1, chain, source, text =>
    if chain.Nodup then
      loadDefinitionWith tree root chain
        ((definitionWithin alarm tree root room).behind tree root chain) source text
    else throw alarm

/-- The full names of the definitions in a tree, each once. -/
def fullNames (tree : FileTree) (root : Path) : List String :=
  ((tree.sources root).map SourceFile.name).dedup

theorem mem_fullNames {s : SourceFile} (h : s ∈ tree.sources root) :
    s.name ∈ fullNames tree root :=
  List.mem_dedup.mpr (List.mem_map_of_mem h)

/-- No alarm is raised as long as the room and the chain together exceed the names of the tree. -/
theorem definitionWithin_eq (alarm : SchemaError) {room : Nat} {chain : List String}
    (hchain : chain.Nodup) (hnames : chain ⊆ fullNames tree root)
    (hroom : (fullNames tree root).length < room + chain.length) (source : SourceFile)
    (text : String) :
    definitionWithin alarm tree root room chain source text =
      loadDefinition tree root chain source text := by
  induction room generalizing chain source text with
  | zero =>
    have hlength := (List.subperm_of_subset hchain hnames).length_le
    omega
  | succ room ih =>
    have hnested : (definitionWithin alarm tree root room).behind tree root chain =
        Reader.behind (loadDefinition tree root) tree root chain := by
      funext target hmem htarget targetText
      refine ih ?_ ?_ ?_ target targetText
      · exact hchain.append (List.nodup_singleton _) (List.disjoint_singleton.mpr htarget)
      · exact List.append_subset.mpr
          ⟨hnames, List.cons_subset.mpr ⟨mem_fullNames hmem, List.nil_subset _⟩⟩
      · rw [List.length_append, List.length_singleton]
        omega
    rw [definitionWithin, if_pos hchain, hnested, loadDefinition_eq]
    rfl

theorem forM_congr {α : Type} {f g : α → Load Unit} {items : List α}
    (h : ∀ a ∈ items, f a = g a) : items.forM f = items.forM g := by
  induction items with
  | nil => rfl
  | cons a rest ih =>
    obtain ⟨ha, hrest⟩ := List.forall_mem_cons.mp h
    change (f a >>= fun _ => rest.forM f) = (g a >>= fun _ => rest.forM g)
    rw [ha, ih hrest]

/-- A selected file is one of the tree. -/
theorem mem_sources_of_selectSources {kept : List SourceFile}
    (h : selectSources tree root = .ok kept) {s : SourceFile} (hs : s ∈ kept) :
    s ∈ tree.sources root := by
  rw [selectSources_eq] at h
  obtain ⟨sources, hsources, rfl⟩ := map_eq_ok_iff.mp h
  have hmem := ((kept_foldl_keepLatest sources).selected s hs).mem
  obtain ⟨hfile, -, -, hof⟩ := (mem_collect_iff hsources).mp hmem
  exact FileTree.mem_sources_iff.mpr ⟨hfile, hof⟩

/-- Loading a tree never raises an alarm with room for each of its names. -/
theorem loadAllWith_definitionWithin (alarm : SchemaError) (tree : FileTree) (root : Path) :
    loadAllWith (definitionWithin alarm tree root (fullNames tree root).length) tree root =
      loadAll tree root := by
  have hselected : loadSelectedWith (definitionWithin alarm tree root (fullNames tree root).length)
      tree root = loadSelectedWith (loadDefinition tree root) tree root := by
    unfold loadSelectedWith
    cases hkept : selectSources tree root with
    | error e => rfl
    | ok kept =>
      refine forM_congr fun s hs => ?_
      have hmem := mem_fullNames (mem_sources_of_selectSources hkept hs)
      have hsame := fun text => definitionWithin_eq alarm (List.nodup_singleton s.name)
        (List.cons_subset.mpr ⟨hmem, List.nil_subset _⟩) (Nat.lt_succ_self _) s text
      unfold loadSourceWith loadNewWith
      simp only [hsame]
  funext table
  rw [loadAll, loadAllWith, loadAllWith, hselected]

end Load

/-! ## Reports of recursion -/

namespace SourceFile

/-- A file of the tree holds a reference that leads to another one. -/
def RefersTo (tree : FileTree) (root : Path) (s target : SourceFile) : Prop :=
  ∃ index reference, s.RefersAt tree root index reference target

/--
Where the chain has the name of the file behind a reference, it has the name that the reference is
read as.
-/
theorem RefersAt.fullName_mem {tree : FileTree} {root : Path} {s target : SourceFile} {index : Nat}
    {reference : Reference} {front : List String}
    (h : s.RefersAt tree root index reference target) (hs : Regular s.name ∨ front = [])
    (hchain : reference.fullName ∈ front ++ [s.name] ∨ target.name ∈ front ++ [s.name]) :
    reference.fullName ∈ front ++ [s.name] := by
  rcases hchain with hname | htarget
  · exact hname
  -- The file of a name with empty segments is not behind a reference, so it is on no chain of more.
  have hregular : Regular s.name := by
    rcases hs with hregular | rfl
    · exact hregular
    · rw [List.nil_append, List.mem_singleton] at htarget
      exact htarget ▸ h.regular
  rwa [← h.name_eq (h.regular_fullName hregular)]

end SourceFile

namespace Load

variable {tree : FileTree} {root : Path} {table after : TypeTable} {path name : String}
  {number : Nat} {names : List String}

/--
Files of which each refers to the next one, and the last one, in a line of the given number, to a
name.  If that name has no empty segments, it is the name of the file behind the reference.
-/
structure Descent (tree : FileTree) (root : Path) (sources : List SourceFile) (path : String)
    (number : Nat) (name : String) : Prop where
  linked : sources.IsChain (SourceFile.RefersTo tree root)
  last : ∃ s index reference target, sources.getLast? = some s ∧ path = s.path.text ∧
    number = index + 1 ∧ s.RefersAt tree root index reference target ∧
    reference.fullName = name ∧ (Regular name → target.name = name)

theorem Descent.cons {s target : SourceFile} {below : List SourceFile}
    (h : Descent tree root (target :: below) path number name)
    (hrefers : s.RefersTo tree root target) :
    Descent tree root (s :: target :: below) path number name := by
  refine ⟨List.isChain_cons_cons.mpr ⟨hrefers, h.linked⟩, ?_⟩
  obtain ⟨last, index, reference, behind, hlast, hrest⟩ := h.last
  exact ⟨last, index, reference, behind, by rw [List.getLast?_cons_cons, hlast], hrest⟩

/-- A definition is refused as recursive at the end of a descent that comes back to the chain. -/
theorem descent_of_loadDefinition {front : List String} {source : SourceFile} {text : String}
    (hmem : source ∈ tree.sources root) (hread : tree.read? source.path = .ok text)
    (hregular : Regular source.name ∨ front = []) (hchain : (front ++ [source.name]).Nodup)
    (h : (loadDefinition tree root (front ++ [source.name]) source text).run table =
      (.error (.line path number (.recursiveReference names name)), after)) :
    ∃ below, Descent tree root (source :: below) path number name ∧
      names = front ++ (source :: below).map SourceFile.name ∧ names.Nodup ∧ name ∈ names := by
  induction hsources : sourcesOutside tree root (front ++ [source.name]) using Nat.strongRecOn
    generalizing front source text table with
  | _ remaining ih =>
  subst hsources
  rw [loadDefinition_eq] at h
  rcases run_bind_eq_error h with htext | ⟨d, middle, -, hinsert⟩
  swap
  · rcases unresolved_of_insert hinsert with hkind | hkind <;> cases hkind
  obtain ⟨before, line, rest, draft, middle, hsplit, -, hline⟩ := elaborateText_eq_error htext
  have hkind : (SchemaError.line path number (.recursiveReference names name)).kind? ≠ some .own :=
    fun hown => (nomatch hown)
  rcases elaborateLine_eq_error hkind hline with
    ⟨written, hwritten, hresolve⟩ | ⟨f, fault, -, hpush, hfault⟩
  swap
  · cases hfault
    exact nomatch SectionDraft.kind_of_pushField hpush
  have hwrites : source.Writes tree before.length written :=
    ⟨text, line, hread, by simp [hsplit], hwritten⟩
  rcases resolver_eq_error hresolve with
    hunresolved | ⟨reference, target, hreference, hlocate, ⟨hclosed, hfault⟩ | hload⟩
  · rcases hunresolved with hnone | hnone <;> cases hnone
  · cases hfault
    have hrefers : source.RefersAt tree root before.length reference target :=
      ⟨hmem, written, hwrites, hreference, hlocate⟩
    refine ⟨[], ⟨List.IsChain.singleton source, ?_⟩, rfl, hchain,
      hrefers.fullName_mem hregular hclosed⟩
    exact ⟨source, before.length, reference, target, rfl, rfl, rfl, hrefers, rfl, hrefers.name_eq⟩
  · obtain ⟨targetText, htargetRead, htarget, -, hdeeper⟩ := hload
    have hrefers : source.RefersAt tree root before.length reference target :=
      ⟨hmem, written, hwrites, hreference, hlocate⟩
    have hnodup : (front ++ [source.name] ++ [target.name]).Nodup :=
      hchain.append (List.nodup_singleton _) (List.disjoint_singleton.mpr htarget)
    have hfewer := sourcesOutside_lt hrefers.located.mem_sources htarget
    obtain ⟨below, hdescent, rfl, hdistinct, hback⟩ := ih _ hfewer hrefers.located.mem_sources
      htargetRead (Or.inl hrefers.regular) hnodup hdeeper rfl
    refine ⟨target :: below, hdescent.cons ⟨_, _, hrefers⟩, ?_, hdistinct, hback⟩
    rw [List.append_assoc]
    rfl

theorem forM_eq_error {α : Type} {f : α → Load Unit} {items : List α} {e : SchemaError}
    (h : (items.forM f).run table = (.error e, after)) :
    ∃ a ∈ items, ∃ middle, (f a).run middle = (.error e, after) := by
  induction items generalizing table with
  | nil => cases h
  | cons a rest ih =>
    rcases run_bind_eq_error h with hfirst | ⟨_, middle, -, hrest⟩
    · exact ⟨a, List.mem_cons_self, table, hfirst⟩
    · obtain ⟨b, hb, hlast⟩ := ih hrest
      exact ⟨b, List.mem_cons_of_mem a hb, hlast⟩

/-- Loading a file fails for what is found out about it, or where reading its definition does. -/
theorem loadSource_eq_error {source : SourceFile} {e : SchemaError}
    (h : (loadSource tree root source).run table = (.error e, after)) :
    Unresolved e ∨ ∃ text, tree.read? source.path = .ok text ∧
      (loadDefinition tree root [source.name] source text).run table = (.error e, after) := by
  unfold loadSource loadSourceWith at h
  rw [run_get_bind] at h
  split at h
  · cases h
  rcases run_bind_eq_error h with htext | ⟨text, middle, htext, hrest⟩
  · exact Or.inl (unresolved_of_readSource htext)
  obtain ⟨hread, rfl⟩ := readSource_eq_ok htext
  rcases run_bind_eq_error hrest with hnew | ⟨id, loaded, -, hlast⟩
  swap
  · cases hlast
  rw [← loadNew, run_loadNew] at hnew
  split at hnew
  · cases hnew
    exact Or.inl (Or.inl rfl)
  · exact Or.inr ⟨text, hread, hnew⟩

/-- A tree is refused as recursive at the end of a descent from a selected file into itself. -/
theorem descent_of_loadAll
    (h : ((loadAll tree root).run table).1 =
      .error (.line path number (.recursiveReference names name))) :
    ∃ kept first below, selectSources tree root = .ok kept ∧ first ∈ kept ∧
      Descent tree root (first :: below) path number name ∧
      names = (first :: below).map SourceFile.name ∧ names.Nodup ∧ name ∈ names := by
  have hresolved : ¬Unresolved (.line path number (.recursiveReference names name)) := by
    rintro (hkind | hkind) <;> cases hkind
  cases hroot : tree.isDirectory root with
  | false =>
    rw [run_loadAll_of_not_isDirectory hroot] at h
    cases h
  | true =>
  rcases run_loadAll_of_isDirectory hroot table with ⟨loaded, -, hrun⟩ | ⟨e, left, hload, hrun⟩
  · rw [hrun] at h
    cases h
  rw [hrun] at h
  cases h
  unfold loadSelected loadSelectedWith at hload
  cases hkept : selectSources tree root with
  | error e =>
    rw [hkept] at hload
    cases hload
    exact absurd (unresolved_of_selectSources hkept) hresolved
  | ok kept =>
  rw [hkept] at hload
  obtain ⟨first, hfirst, middle, hsource⟩ := forM_eq_error hload
  rcases loadSource_eq_error hsource with hunresolved | ⟨text, hread, hdefinition⟩
  · exact absurd hunresolved hresolved
  obtain ⟨below, hdescent, hnames, hdistinct, hback⟩ := descent_of_loadDefinition
    (mem_sources_of_selectSources hkept hfirst) hread (Or.inr rfl) (List.nodup_singleton _)
    hdefinition
  exact ⟨kept, first, below, rfl, hfirst, hdescent, hnames, hdistinct, hback⟩

/-- A file of the first name holds a reference that is read as or leads to the second name. -/
def RefersByName (tree : FileTree) (root : Path) (a b : String) : Prop :=
  ∃ (s : SourceFile) (index : Nat) (reference : Reference) (target : SourceFile),
    s.RefersAt tree root index reference target ∧ s.name = a ∧
      (reference.fullName = b ∨ target.name = b)

/-- The names of a descent into itself refer to each other in a cycle. -/
theorem Descent.transGen {sources : List SourceFile}
    (h : Descent tree root sources path number name)
    (hback : name ∈ sources.map SourceFile.name) :
    Relation.TransGen (RefersByName tree root) name name := by
  have hlinked : (sources.map SourceFile.name).IsChain (RefersByName tree root) := by
    refine (List.isChain_map SourceFile.name).mpr (h.linked.imp ?_)
    rintro s target ⟨index, reference, hrefers⟩
    exact ⟨s, index, reference, target, hrefers, rfl, Or.inr rfl⟩
  obtain ⟨s, index, reference, target, hlast, -, -, hrefers, hname, -⟩ := h.last
  have hlastName : (sources.map SourceFile.name).getLast? = some s.name := by
    rw [List.getLast?_map, hlast]
    rfl
  obtain ⟨front, behind, hsplit⟩ := List.append_of_mem hback
  rw [hsplit] at hlinked hlastName
  have hend : (name :: behind).getLast (List.cons_ne_nil _ _) = s.name := by
    rw [List.getLast?_append, List.getLast?_eq_some_getLast (List.cons_ne_nil _ _)] at hlastName
    exact Option.some.inj hlastName
  have hreach := List.relationReflTransGen_of_exists_isChain_cons behind
    hlinked.right_of_append hend
  exact .tail' hreach ⟨s, index, reference, target, hrefers, rfl, Or.inl hname⟩

/-! ## Loaded trees -/

/--
Each reference of the file leads to a file of the tree, and to a definition before a position of the
table, by the name that the reference is read as or by the name of that file.
-/
def RefersBack (tree : FileTree) (root : Path) (table : TypeTable) (i : Nat) (s : SourceFile) :
    Prop :=
  ∀ index written, s.Writes tree index written →
    ∃ (reference : Reference) (target : SourceFile) (j : Nat) (d : Definition),
      Reference.read? s.nameSpace written = some reference ∧
      s.RefersAt tree root index reference target ∧ j < i ∧ table.definitions[j]? = some d ∧
      (d.name = reference.fullName ∨ d.name = target.name)

/-- Every definition of a loaded tree was read from a file whose references lead to earlier ones. -/
theorem earlier_of_ofTree {loaded : TypeTable} (h : TypeTable.ofTree tree root = .ok loaded)
    {i : Nat} {d : Definition} (hd : loaded.definitions[i]? = some d) :
    ∃ s ∈ tree.sources root, s.name = d.name ∧ ReadFrom tree root s d (loaded.before i) ∧
      RefersBack tree root loaded i s := by
  obtain ⟨sources, -, hsourced, -⟩ := sourced_of_ofTree h
  obtain ⟨s, horigin, hname, hread⟩ := hsourced i d hd
  have hs : s ∈ tree.sources root := by
    rcases horigin with ⟨kept, hkept, hmem⟩ | hlocated
    · exact mem_sources_of_selectSources hkept hmem
    · exact hlocated.mem_sources
  refine ⟨s, hs, hname, hread, fun index written hwritten => ?_⟩
  obtain ⟨reference, target, j, found, href, hrefers, hfound, hfoundName⟩ :=
    hread.finds hs hwritten
  obtain ⟨hlt, hfound⟩ := TypeTable.getElem?_before hfound
  exact ⟨reference, target, j, found, href, hrefers, hlt, hfound, hfoundName⟩

/--
Loading a tree never has a name on the chain of names that are being read twice, nor a chain with
more names than the tree has: it would do the same if an alarm were raised then.

A report of recursion lists the names of files that were read one for another, starting with a
selected one, each of which refers to the next one and the last one, in the line of the report, to a
name of the list; so there is none if no name refers to itself in the end.

In a tree that is loaded no definition refers to itself in the end, and every reference of the file
that a definition was read from leads to a definition before it.
-/
theorem recursion_of_loadAll (tree : FileTree) (root : Path) :
    (∀ alarm, loadAllWith (definitionWithin alarm tree root (fullNames tree root).length) tree root =
        loadAll tree root) ∧
      (∀ table path number names name, ((loadAll tree root).run table).1 =
          .error (.line path number (.recursiveReference names name)) →
        ∃ kept first below, selectSources tree root = .ok kept ∧ first ∈ kept ∧
          Descent tree root (first :: below) path number name ∧
          names = (first :: below).map SourceFile.name ∧ names.Nodup ∧ name ∈ names) ∧
      ((∀ name, ¬Relation.TransGen (RefersByName tree root) name name) →
        ∀ table path number names name, ((loadAll tree root).run table).1 ≠
          .error (.line path number (.recursiveReference names name))) ∧
      ∀ loaded, TypeTable.ofTree tree root = .ok loaded →
        (∀ i, ¬Relation.TransGen loaded.RefersTo i i) ∧
          ∀ i d, loaded.definitions[i]? = some d →
            ∃ s ∈ tree.sources root, s.name = d.name ∧ ReadFrom tree root s d (loaded.before i) ∧
              RefersBack tree root loaded i s := by
  refine ⟨fun alarm => loadAllWith_definitionWithin alarm tree root, ?_, ?_, ?_⟩
  · intro table path number names name h
    exact descent_of_loadAll h
  · intro hacyclic table path number names name h
    obtain ⟨kept, first, below, -, -, hdescent, rfl, -, hback⟩ := descent_of_loadAll h
    exact hacyclic name (hdescent.transGen hback)
  · intro loaded h
    refine ⟨fun i hcycle => ?_, fun i d hd => earlier_of_ofTree h hd⟩
    have hearlier : ∀ i j, Relation.TransGen loaded.RefersTo i j → j < i := by
      intro i j hreach
      induction hreach with
      | single hrefers => exact TypeTable.lt_of_refersTo hrefers
      | tail _ hrefers ih => exact (TypeTable.lt_of_refersTo hrefers).trans ih
    exact Nat.lt_irrefl i (hearlier i i hcycle)

/-- A descent into itself behind its first file, and a definition that is reached in two ways. -/
theorem recursion_of_loadAll_cycle_and_diamond :
    let root := Path.ofText "r"
    let cycle := FileTree.ofTexts [("r/A.uavcan", "B b\n"), ("r/B.uavcan", "uint8 x\nC[2] c\n"),
      ("r/C.uavcan", "# again\nB b\n")]
    let diamond := FileTree.ofTexts [("r/A.uavcan", "B b\nC c\n"), ("r/B.uavcan", "D d\n"),
      ("r/C.uavcan", "D d\n"), ("r/D.uavcan", "uint8 x\n")]
    let loaded := ((loadAll diamond root).run {}).2
    (∃ first below, Descent cycle root (first :: below) "r/C.uavcan" 2 "B" ∧
        (first :: below).map SourceFile.name = ["A", "B", "C"]) ∧
      TypeTable.ofTree diamond root = .ok loaded ∧
      loaded.definitions.map Definition.name = ["D", "B", "C", "A"] ∧
      ∀ i, ¬Relation.TransGen loaded.RefersTo i i := by
  intro root cycle diamond loaded
  have hrefused : ((loadAll cycle root).run {}).1 =
      .error (.line "r/C.uavcan" 2 (.recursiveReference ["A", "B", "C"] "B")) := by
    decide +kernel
  have hloaded : TypeTable.ofTree diamond root = .ok loaded :=
    ofTree_of_loadAll_ok (by decide +kernel) (by decide +kernel)
  obtain ⟨kept, first, below, -, -, hdescent, hnames, -, -⟩ :=
    (recursion_of_loadAll cycle root).2.1 {} _ _ _ _ hrefused
  have hacyclic := ((recursion_of_loadAll diamond root).2.2.2 loaded hloaded).1
  exact ⟨⟨first, below, hdescent, hnames.symm⟩, hloaded, by decide +kernel, hacyclic⟩

end Load

end BusSchema
