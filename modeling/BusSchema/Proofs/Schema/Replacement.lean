import BusSchema.Proofs.Schema.Session

/-!
# Loading a tree in place of what was loaded before

A session is observed by the result of each call and the table after it (`Load.transcript`).  The
names that are being read are given to the loading of a file and are gone when it ends, so nothing
but the table goes from one call to the next.

Loading a tree whose root is a directory forgets all calls before it, whatever they did and however
it ends (`Load.transcript_whole`).  Without a root directory the call is refused before it forgets
anything, so its error is the only one that comes with a table that need not be empty
(`Load.refused_without_root_keeps_table`).
-/

namespace BusSchema

namespace Load

/-- The result of a call: the position of the definition in a text, and none for a tree. -/
def Call.result (root : Path) (table : TypeTable) : Call → Except SchemaError (Option Nat)
  | one tree path text => ((loadText tree root path text).run table).1.map some
  | whole tree => ((loadAll tree root).run table).1.map fun _ => none

/-- The results of calls from a table on, each with the table that the call leaves. -/
def transcript (root : Path) :
    TypeTable → List Call → List (Except SchemaError (Option Nat) × TypeTable)
  | _, [] => []
  | table, call :: rest =>
    (call.result root table, call.apply root table) :: transcript root (call.apply root table) rest

theorem transcript_append (root : Path) (table : TypeTable) (before after : List Call) :
    transcript root table (before ++ after) =
      transcript root table before ++
        transcript root (before.foldl (Call.apply root) table) after := by
  induction before generalizing table with
  | nil => rfl
  | cons call rest ih =>
    have hstep := ih (call.apply root table)
    rw [List.cons_append, transcript, hstep]
    rfl

variable {tree : FileTree} {root : Path}

/-- A tree whose root is a directory is loaded in the same way into every table. -/
theorem run_loadAll_eq_of_isDirectory (hroot : tree.isDirectory root = true)
    (table : TypeTable) : (loadAll tree root).run table = (loadAll tree root).run {} :=
  (if_pos hroot).trans (if_pos hroot).symm

/-- An error behind the root directory leaves no definitions. -/
theorem table_of_loadAll_error (hroot : tree.isDirectory root = true) {table : TypeTable}
    {e : SchemaError} (h : ((loadAll tree root).run table).1 = .error e) :
    ((loadAll tree root).run table).2 = {} := by
  rcases run_loadAll_of_isDirectory hroot table with ⟨loaded, -, hrun⟩ | ⟨_, left, -, hrun⟩
  · rw [hrun] at h
    cases h
  · rw [hrun]

/-- What is loaded from a tree is the table of the tree. -/
theorem ofTree_of_loadAll_ok (hroot : tree.isDirectory root = true) {table : TypeTable}
    (h : ((loadAll tree root).run table).1 = .ok ()) :
    TypeTable.ofTree tree root = .ok ((loadAll tree root).run table).2 := by
  rw [run_loadAll_eq_of_isDirectory hroot] at h ⊢
  unfold TypeTable.ofTree
  cases hrun : (loadAll tree root).run {} with
  | mk result loaded =>
    rw [hrun] at h
    cases h
    rfl

/--
Whatever was loaded before, a tree whose root is a directory leaves an empty table if it cannot be
loaded, and otherwise the table of the tree; this call and all that follow go on as if the session
had started with it.  Without a root directory the call is refused and changes nothing, so that the
calls that follow go on as if it had not been made.
-/
theorem transcript_whole (root : Path) (before after : List Call) (tree : FileTree) :
    let table := tableAfter root before
    let result := ((loadAll tree root).run table).1
    let loaded := ((loadAll tree root).run table).2
    let session := transcript root {} (before ++ .whole tree :: after)
    (tree.isDirectory root = true →
      (∀ e, result = .error e → loaded = {}) ∧
        (result = .ok () → TypeTable.ofTree tree root = .ok loaded) ∧
        session = transcript root {} before ++ transcript root {} (.whole tree :: after)) ∧
      (tree.isDirectory root = false →
        result = .error (.rootNotFound root.text) ∧ loaded = table ∧
          session = transcript root {} before ++
            (.error (.rootNotFound root.text), table) :: transcript root table after) := by
  intro table result loaded session
  have hsession : session =
      transcript root {} before ++ transcript root table (.whole tree :: after) :=
    transcript_append root {} before (.whole tree :: after)
  rw [hsession]
  refine ⟨?_, ?_⟩
  · intro hroot
    refine ⟨fun e h => table_of_loadAll_error hroot h, ofTree_of_loadAll_ok hroot, ?_⟩
    have hrun := run_loadAll_eq_of_isDirectory hroot table
    rw [transcript, transcript, Call.result, Call.result, Call.apply, Call.apply, hrun]
  · intro hroot
    have hrun := run_loadAll_of_not_isDirectory hroot table
    have hresult : result = .error (.rootNotFound root.text) := congrArg Prod.fst hrun
    have hloaded : loaded = table := congrArg Prod.snd hrun
    refine ⟨hresult, hloaded, ?_⟩
    rw [transcript, Call.result, Call.apply, hrun]
    rfl

/-- The error for a root that is no directory comes with the definitions that were loaded before. -/
theorem refused_without_root_keeps_table :
    let root := Path.ofText "r"
    let calls := [Call.one {} (Path.ofText "r/A.uavcan") "uint8 a\n"]
    let table := tableAfter root calls
    (loadAll {} root).run table = (.error (.rootNotFound "r"), table) ∧ table.size = 1 := by
  intro root calls table
  exact ⟨run_loadAll_of_not_isDirectory rfl table, by decide +kernel⟩

end Load

end BusSchema
