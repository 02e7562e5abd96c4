import BusSchema.Proofs.Schema.Session
import Mathlib.Data.List.Nodup

/-!
# Well-formed type tables

A table that was built has definitions with different names, each of which refers to messages
before it only (`TypeTable.Built.wellFormed`).  This holds after every call of a session, where a
text never takes away or changes a definition, and adds the one that it is to hold only if it can be
read (`Load.wellFormed_tableAfter`).
-/

namespace BusSchema

namespace FieldType

/-- All numeric types and padding in a type have widths that are allowed. -/
def WidthsAllowed : FieldType → Prop
  | primitive p => p.kind.AllowsWidth p.width
  | padding p => 1 ≤ p.width ∧ p.width ≤ 64
  | compound _ => True
  | array element _ _ => element.WidthsAllowed

theorem widthsAllowed (type : FieldType) : type.WidthsAllowed := by
  induction type with
  | primitive p => exact p.allowed
  | padding p => exact p.allowed
  | compound id => trivial
  | array element mode size ih => exact ih

/-- A valid type refers to messages of the table. -/
theorem Valid.references {table : TypeTable} {type : FieldType} (h : type.Valid table) :
    ∀ id ∈ type.references, ∃ d, table.definitions[id]? = some d ∧ d.isService = false := by
  induction type with
  | primitive p =>
    intro id hid
    cases hid
  | padding p =>
    intro id hid
    cases hid
  | compound target =>
    intro id hid
    rw [List.mem_singleton.mp hid]
    exact h
  | array element mode size ih => exact ih h.2.1

end FieldType

/-- A valid definition refers to definitions of the table. -/
theorem Definition.Valid.resolved {table : TypeTable} {d : Definition} (h : d.Valid table) :
    ∀ id ∈ d.references, id < table.size := by
  intro id hid
  obtain ⟨s, hs, hid⟩ := List.mem_flatMap.mp hid
  obtain ⟨f, hf, hid⟩ := List.mem_flatMap.mp hid
  obtain ⟨target, htarget, -⟩ := ((h s hs).types f hf).references id hid
  exact (List.getElem?_eq_some_iff.mp htarget).1

namespace TypeTable

/-- What every table satisfies that loading leaves. -/
structure WellFormed (table : TypeTable) : Prop where
  /-- Definitions have different names. -/
  names : (table.definitions.map Definition.name).Nodup
  /-- Every definition is found by its name. -/
  find? : ∀ i d, table.definitions[i]? = some d → table.find? d.name = some i
  /-- References lead to messages before the definition. -/
  references : ∀ (i : Nat) (d : Definition), table.definitions[i]? = some d →
    ∀ s ∈ d.sections, ∀ f ∈ s.fields, ∀ id ∈ f.type.references,
      id < i ∧ ∃ target, table.definitions[id]? = some target ∧ target.isService = false
  /-- Attributes of a section have different names. -/
  attributes : ∀ d ∈ table.definitions, ∀ s ∈ d.sections, s.names.Nodup
  /-- Arrays have elements, and these are primitive or compound. -/
  arrays : ∀ d ∈ table.definitions, ∀ s ∈ d.sections, ∀ f ∈ s.fields,
    ∀ element mode size, f.type = .array element mode size → 1 ≤ size ∧ element.IsElement
  /-- All widths in fields and constants are allowed. -/
  widths : ∀ d ∈ table.definitions, ∀ s ∈ d.sections,
    (∀ f ∈ s.fields, f.type.WidthsAllowed) ∧
      ∀ c ∈ s.constants, c.type.kind.AllowsWidth c.type.width
  /-- A message has no response. -/
  messages : ∀ d ∈ table.definitions, d.isService = false → d.response = none

theorem contains_iff {table : TypeTable} {name : String} :
    table.contains name = true ↔ ∃ d ∈ table.definitions, d.name = name := by
  rw [← Bool.not_eq_false, contains_eq_false_iff]
  push Not
  rfl

theorem find?_push {table : TypeTable} {d : Definition} (h : table.Accepts d) :
    (table.push d h).2.find? d.name = some table.size := by
  have hnone : table.definitions.findIdx? (·.name = d.name) = none := by
    simpa [contains, TypeTable.find?] using h.fresh
  unfold TypeTable.find?
  rw [definitions_push, List.findIdx?_append, hnone]
  simp [size]

theorem getElem?_push {table : TypeTable} {d other : Definition} {haccepts : table.Accepts d}
    {i : Nat} (h : (table.push d haccepts).2.definitions[i]? = some other) :
    table.definitions[i]? = some other ∨ i = table.size ∧ other = d := by
  rw [definitions_push] at h
  rcases Nat.lt_or_ge i table.size with hi | hi
  · rw [List.getElem?_append_left hi] at h
    exact Or.inl h
  · rw [List.getElem?_append_right hi] at h
    rw [List.getElem?_singleton] at h
    split at h
    · next hzero =>
      cases h
      exact Or.inr ⟨Nat.le_antisymm (Nat.le_of_sub_eq_zero hzero) hi, rfl⟩
    · cases h

/-- What a definition refers to is in the table. -/
theorem exists_of_mem_references (table : TypeTable) {i : Nat} {d : Definition}
    (hd : table.definitions[i]? = some d) {id : Nat} (hid : id ∈ d.references) :
    ∃ target, table.definitions[id]? = some target :=
  ⟨_, List.getElem?_eq_getElem
    ((table.backward i d hd id hid).trans (List.getElem?_eq_some_iff.mp hd).1)⟩

/-- Every definition is found by its name. -/
theorem find?_name (table : TypeTable) {i : Nat} {d : Definition}
    (hd : table.definitions[i]? = some d) : table.find? d.name = some i := by
  obtain ⟨hi, hget⟩ := List.getElem?_eq_some_iff.mp hd
  refine List.findIdx?_eq_some_iff_getElem.mpr ⟨hi, by simp [hget], ?_⟩
  intro j hj hsame
  have hname : table.definitions[j].name = d.name := by simpa using hsame
  have hother : table.definitions[j] = table.definitions[i] :=
    List.inj_on_of_nodup_map table.distinct (List.getElem_mem _) (List.getElem_mem hi)
      (by rw [hname, hget])
  have hnodup : table.definitions.Nodup := List.Nodup.of_map _ table.distinct
  exact Nat.ne_of_lt hj ((List.Nodup.getElem_inj_iff hnodup).mp hother)

variable {table : TypeTable} (htable : table.Built)

include htable

/-- Built tables are well-formed. -/
theorem Built.wellFormed : table.WellFormed where
  names := table.distinct
  find? := fun _ _ hd => table.find?_name hd
  references := by
    intro i d hd s hs f hf id hid
    have hvalid := (htable.valid (List.mem_of_getElem? hd) s hs).types f hf
    exact ⟨table.backward i d hd id (Definition.mem_references hs hf hid),
      hvalid.references id hid⟩
  attributes := fun _ hd s hs => (htable.valid hd s hs).distinct
  arrays := by
    intro d hd s hs f hf element mode size htype
    have hvalid := (htable.valid hd s hs).types f hf
    rw [htype] at hvalid
    exact ⟨hvalid.2.2.1, hvalid.1⟩
  widths := fun _ _ _ _ => ⟨fun f _ => f.type.widthsAllowed, fun c _ => c.type.allowed⟩
  messages := by
    intro d _ hservice
    simpa [Definition.isService] using hservice

end TypeTable

namespace Load

theorem chainInvariant_trivial (tree : FileTree) (root : Path) :
    ChainInvariant tree root (fun _ _ => True) (fun _ _ => True) where
  located := fun _ _ _ _ => trivial
  opens := fun _ _ _ _ _ _ => trivial
  closes := fun _ _ _ _ => trivial
  reads := by
    intro front source text _ _ chain hresolve
    exact triple_conseq (triple_elaborateText hresolve source text) (fun _ h => h)
      (fun _ _ h => ⟨h.1, fun _ => trivial⟩) fun _ h => h

/-- A definition that was read is only refused by the table if its name is taken. -/
theorem accepts_iff_of_elaborateText {tree : FileTree} {root : Path} {chain : List String}
    {source : SourceFile} {text : String} {table after : TypeTable} {d : Definition}
    (h : (elaborateText (resolver tree root chain source) source text).run table =
      (.ok d, after)) :
    after.Accepts d ↔ after.contains d.name = false := by
  have hresolve :=
    resolves_resolver_of_chainInvariant (chainInvariant_trivial tree root) chain source
  have hread := (triple_elaborateText hresolve source text table trivial).2
  rw [h] at hread
  exact ⟨fun haccepts => haccepts.fresh, fun hfresh => ⟨hfresh, hread.2.1.resolved⟩⟩

/-- A definition that was read is found by the name of its file. -/
theorem find?_of_loadDefinition {tree : FileTree} {root : Path} {chain : List String}
    {source : SourceFile} {text : String} {table after : TypeTable} {id : Nat}
    (h : (loadDefinition tree root chain source text).run table = (.ok id, after)) :
    after.find? source.name = some id := by
  obtain ⟨d, middle, -, hname, rfl, haccepts, rfl⟩ := loadDefinition_eq_ok h
  rw [← hname]
  exact TypeTable.find?_push haccepts

theorem find?_of_loadNew {tree : FileTree} {root : Path} {source : SourceFile} {text : String}
    {table after : TypeTable} {id : Nat}
    (h : (loadNew tree root source text).run table = (.ok id, after)) :
    after.find? source.name = some id := by
  rw [run_loadNew] at h
  split at h
  · cases h
  · exact find?_of_loadDefinition h

/--
After every session the table is well-formed.  A further text keeps all definitions at their
positions, and if it is refused, the definition that its path names is in the table only if it was
there before.
-/
theorem wellFormed_tableAfter (root : Path) (calls : List Call) :
    (tableAfter root calls).WellFormed ∧
      ∀ (tree : FileTree) (path : Path) (text : String),
        let before := tableAfter root calls
        let result := ((loadText tree root path text).run before).1
        let after := tableAfter root (calls ++ [.one tree path text])
        (∀ (i : Nat) (d : Definition), before.definitions[i]? = some d →
          after.definitions[i]? = some d) ∧
          ∀ e source, result = .error e → SourceFile.ofPath root path = .ok source →
            after.find? source.name = before.find? source.name := by
  have hbuilt := built_tableAfter root calls
  refine ⟨hbuilt.wellFormed, ?_⟩
  intro tree path text before result after
  have hafter : after = ((loadText tree root path text).run before).2 :=
    tableAfter_concat root calls (.one tree path text)
  rw [hafter]
  refine ⟨?_, ?_⟩
  · intro i d hd
    exact (grows_loadText tree root path text hbuilt).getElem? hd
  · intro e source hresult hsource
    exact find?_of_loadText_error hbuilt hresult hsource

/-- A refused text leaves the definition before it and the one that it refers to. -/
theorem wellFormed_tableAfter_refused :
    let root := Path.ofText "r"
    let tree := FileTree.ofTexts [("r/B.uavcan", "uint8 b\n")]
    let path := Path.ofText "r/C.uavcan"
    let calls := [Call.one {} (Path.ofText "r/A.uavcan") "uint8 a\n"]
    let after := tableAfter root (calls ++ [.one tree path "B b\n%\n"])
    (tableAfter root calls).WellFormed ∧ after.find? "A" = some 0 ∧ after.find? "B" = some 1 ∧
      after.find? "C" = none := by
  intro root tree path calls after
  have hsource : SourceFile.ofPath root path = .ok ⟨path, ⟨"C", 0, {}⟩, ""⟩ := by decide +kernel
  have hrefused : ((loadText tree root path "B b\n%\n").run (tableAfter root calls)).1 =
      .error (.line "r/C.uavcan" 2 .malformed) := by decide +kernel
  have hbefore : (tableAfter root calls).find? "C" = none := by decide +kernel
  obtain ⟨hwell, hnext⟩ := wellFormed_tableAfter root calls
  have hafter := (hnext tree path "B b\n%\n").2 _ _ hrefused hsource
  exact ⟨hwell, by decide +kernel, by decide +kernel, hafter.trans hbefore⟩

end Load

end BusSchema
