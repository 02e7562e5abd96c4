import BusSchema.Proofs.Schema.Elaboration

/-!
# Loading in several calls

A session reads texts and whole trees one after the other into one table.  Each call may fail and
may see another tree than the calls before it.  The table is built after every call
(`Load.built_tableAfter`), texts only add to it (`Load.grows_loadText`), and a text that is refused
does not add the definition that it was to hold (`Load.find?_of_loadText_error`).
-/

namespace BusSchema

namespace Load

/-- A call in a session: a text taken as the file at a path, or a whole tree. -/
inductive Call
  | one (tree : FileTree) (path : Path) (text : String)
  | whole (tree : FileTree)

/-- The table that a call leaves, whether it succeeds or not. -/
def Call.apply (root : Path) (table : TypeTable) : Call → TypeTable
  | one tree path text => ((loadText tree root path text).run table).2
  | whole tree => ((loadAll tree root).run table).2

/-- The table after a session, which starts without definitions. -/
def tableAfter (root : Path) (calls : List Call) : TypeTable :=
  calls.foldl (Call.apply root) .empty

theorem tableAfter_concat (root : Path) (calls : List Call) (call : Call) :
    tableAfter root (calls ++ [call]) = call.apply root (tableAfter root calls) := by
  rw [tableAfter, List.foldl_append]
  rfl

/-- Loading a tree with a root directory leaves what was loaded into an empty table, or nothing. -/
theorem run_loadAll_of_isDirectory {tree : FileTree} {root : Path}
    (hroot : tree.isDirectory root = true) (table : TypeTable) :
    (∃ loaded, (loadSelected tree root).run {} = (.ok (), loaded) ∧
        (loadAll tree root).run table = (.ok (), loaded)) ∨
      ∃ e left, (loadSelected tree root).run {} = (.error e, left) ∧
        (loadAll tree root).run table = (.error e, {}) := by
  have hrun : (loadAll tree root).run table =
      loadAllWith (loadDefinition tree root) tree root table := rfl
  rw [hrun, loadAllWith, if_pos hroot]
  cases hselected : (loadSelectedWith (loadDefinition tree root) tree root).run .empty with
  | mk result left =>
    cases result with
    | ok _ => exact Or.inl ⟨left, hselected, rfl⟩
    | error e => exact Or.inr ⟨e, left, hselected, rfl⟩

theorem run_loadAll_of_not_isDirectory {tree : FileTree} {root : Path}
    (hroot : tree.isDirectory root = false) (table : TypeTable) :
    (loadAll tree root).run table = (.error (.rootNotFound root.text), table) :=
  if_neg (by rw [hroot]; exact Bool.false_ne_true)

section Invariant

variable {root : Path} {inv : List String → TypeTable → Prop}
  (hinv : ∀ tree, ChainInvariant tree root (fun _ _ => True) inv) (hempty : inv [] {})

include hinv

theorem triple_loadText (tree : FileTree) (path : Path) (text : String) :
    Triple (inv []) (loadText tree root path text) (fun _ => inv []) (inv []) := by
  unfold loadText
  split
  · exact triple_throw fun table h => h
  · exact triple_loadNew (hinv tree) trivial

include hempty

theorem invariant_loadAll (tree : FileTree) {table : TypeTable}
    (htable : inv [] table) : inv [] ((loadAll tree root).run table).2 := by
  -- A tree is loaded into an empty table, so nothing is kept of the one before it.
  have hselected := (triple_loadSelected (hinv tree) (fun _ _ _ _ _ _ => trivial) {} hempty).2
  cases hroot : tree.isDirectory root with
  | true =>
    rcases run_loadAll_of_isDirectory hroot table with
      ⟨loaded, hload, hrun⟩ | ⟨e, left, hload, hrun⟩
    · rw [hload] at hselected
      rw [hrun]
      exact hselected
    · rw [hrun]
      exact hempty
  | false =>
    rw [run_loadAll_of_not_isDirectory hroot table]
    exact htable

/-- A chain invariant holds after every session. -/
theorem invariant_tableAfter (calls : List Call) :
    inv [] (tableAfter root calls) := by
  induction calls using List.reverseRecOn with
  | nil => exact hempty
  | append_singleton calls call ih =>
    rw [tableAfter_concat]
    cases call with
    | one tree path text =>
      have htext := (triple_loadText hinv tree path text _ ih).2
      rw [Call.apply]
      split at htext
      · exact htext
      · exact htext
    | whole tree => exact invariant_loadAll hinv hempty tree ih

end Invariant

theorem open_empty : Open [] {} := by
  refine ⟨.empty, ?_⟩
  intro name hname
  cases hname

/-- The table is built after every session. -/
theorem built_tableAfter (root : Path) (calls : List Call) : (tableAfter root calls).Built :=
  (invariant_tableAfter (fun tree => chainInvariant_open tree root) open_empty calls).1

/-- A text only adds to the table, whether it can be read or not. -/
theorem grows_loadText (tree : FileTree) (root path : Path) (text : String) {table : TypeTable}
    (htable : table.Built) : table.Grows ((loadText tree root path text).run table).2 := by
  have hopen : Open [] table := ⟨htable, fun name hname => nomatch hname⟩
  exact (triple_loadText (fun tree => chainInvariant_open tree root) tree path text table hopen).1

theorem run_loadNew (tree : FileTree) (root : Path) (source : SourceFile) (text : String)
    (table : TypeTable) :
    (loadNew tree root source text).run table =
      if table.contains source.name then (.error (.duplicateName source.name), table)
      else (loadDefinition tree root [source.name] source text).run table := by
  have hget : (get : Load TypeTable).run table = (.ok table, table) := rfl
  unfold loadNew loadNewWith
  rw [run_bind, hget]
  dsimp only
  cases table.contains source.name with
  | true => rfl
  | false => rfl

theorem contains_of_loadDefinition_error {tree : FileTree} {root : Path} {source : SourceFile}
    {text : String} {table : TypeTable} {e : SchemaError} (htable : table.Built)
    (hnew : table.contains source.name = false)
    (h : ((loadDefinition tree root [source.name] source text).run table).1 = .error e) :
    ((loadDefinition tree root [source.name] source text).run table).2.contains source.name =
      false := by
  have hopen : Open [source.name] table := by
    refine ⟨htable, ?_⟩
    intro name hname
    rwa [List.mem_singleton.mp hname]
  have hload := (triple_loadDefinition (chainInvariant_open tree root) List.not_mem_nil text
    trivial table hopen).2
  rw [List.nil_append, h] at hload
  exact hload.2 source.name List.mem_cons_self

/-- A text that is refused does not add the definition that its path names. -/
theorem find?_of_loadText_error {tree : FileTree} {root path : Path} {text : String}
    {table : TypeTable} (htable : table.Built) {e : SchemaError}
    (h : ((loadText tree root path text).run table).1 = .error e) {source : SourceFile}
    (hsource : SourceFile.ofPath root path = .ok source) :
    ((loadText tree root path text).run table).2.find? source.name =
      table.find? source.name := by
  have hgrows := grows_loadText tree root path text htable
  cases hbefore : table.find? source.name with
  | some i => exact hgrows.find? hbefore
  | none =>
    have hnew : table.contains source.name = false := by
      rw [TypeTable.contains, hbefore]
      rfl
    have hload : (loadText tree root path text).run table =
        (loadDefinition tree root [source.name] source text).run table := by
      rw [loadText, hsource]
      exact (run_loadNew tree root source text table).trans (by rw [hnew]; rfl)
    rw [hload] at h ⊢
    have hafter := contains_of_loadDefinition_error htable hnew h
    simpa [TypeTable.contains] using hafter

end Load

namespace TypeTable

/-- A tree is loaded by the only call of a session. -/
theorem eq_tableAfter_of_ofTree {tree : FileTree} {root : Path} {table : TypeTable}
    (h : TypeTable.ofTree tree root = .ok table) :
    table = Load.tableAfter root [.whole tree] := by
  have hcall : Load.tableAfter root [.whole tree] = ((Load.loadAll tree root).run {}).2 := rfl
  rw [hcall]
  unfold TypeTable.ofTree at h
  split at h
  · next hload =>
    cases h
    rw [hload]
  · cases h

theorem built_of_ofTree {tree : FileTree} {root : Path} {table : TypeTable}
    (h : TypeTable.ofTree tree root = .ok table) : table.Built := by
  rw [eq_tableAfter_of_ofTree h]
  exact Load.built_tableAfter root [.whole tree]

end TypeTable

end BusSchema
