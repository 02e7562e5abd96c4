import BusSchema.Proofs.Schema.Origin
import BusSchema.Proofs.Schema.Placement

/-!
# The fields that a text declares

A line of a text may stand for an attribute (`Load.attributeOf?`), and the lines up to the separator
and behind it give the fields of the sections (`Load.declared`).  References are looked up among the
definitions that the table held when the text had been read, which is enough to read all its lines
again (`Load.Says`).

The sections of the definition are these fields put into place (`Load.Says.fields`), so
after any session all sections have their compound fields between byte boundaries and no padding
elsewhere that is not written (`Load.laidOut_of_loadText`).
-/

namespace BusSchema

/-- The field that an attribute is, unless it is a constant. -/
def Attribute.field? : Attribute → Option Field
  | field f => some f
  | constant _ => none

theorem forall₂_of_map_eq {α β γ : Type} {f : α → γ} {g : β → γ} {p : α → β → Prop}
    {as : List α} {bs : List β} (h : as.map f = bs.map g)
    (hp : ∀ b ∈ bs, ∀ a, f a = g b → p a b) : List.Forall₂ p as bs := by
  induction as generalizing bs with
  | nil =>
    obtain rfl := List.map_eq_nil_iff.mp h.symm
    exact .nil
  | cons a as ih =>
    obtain ⟨b, rest, rfl, hb, hrest⟩ := List.map_eq_cons_iff.mp h.symm
    obtain ⟨hfirst, hothers⟩ := List.forall_mem_cons.mp hp
    exact .cons (hfirst a hb.symm) (ih hrest.symm hothers)

/-! ## Drafts -/

namespace DefinitionDraft

variable {table : TypeTable} {draft next : DefinitionDraft}

/-- The fields of the sections before the current one. -/
def finished (draft : DefinitionDraft) : List (List Field) :=
  match draft.response with
  | none => []
  | some _ => [draft.request.fields]

theorem finished_setCurrent (draft : DefinitionDraft) (names : List String) (s : SectionDraft) :
    (({ draft with names } : DefinitionDraft).setCurrent s).finished = draft.finished := by
  unfold setCurrent finished
  cases draft.response <;> rfl

theorem fields_sections_finish (draft : DefinitionDraft) (name : String) (header : FileName) :
    (draft.finish name header).sections.map Section.fields =
      draft.finished ++ [draft.current.fields] := by
  unfold finish Definition.sections finished current
  cases draft.response <;> rfl

theorem fields_of_separate (h : draft.separate = .ok next) :
    next.finished = draft.finished ++ [draft.current.fields] ∧ next.current.fields = [] := by
  unfold separate at h
  split at h
  · cases h
  · next hresponse =>
    cases h
    unfold finished current
    rw [hresponse]
    exact ⟨rfl, rfl⟩

theorem fields_of_direct {name : String} {hasArgument : Bool}
    (h : draft.direct name hasArgument = .ok next) :
    next.finished = draft.finished ∧ next.current.fields = draft.current.fields := by
  unfold direct at h
  split at h
  · cases h
    rw [finished_setCurrent draft draft.names, current_setCurrent draft draft.names]
    exact ⟨rfl, rfl⟩
  · split at h
    · cases h
      exact ⟨rfl, rfl⟩
    · cases h

/-- An attribute is placed behind the fields of the current section if it is a field. -/
theorem fields_of_push (hdraft : draft.current.Counted table) {attr : Attribute}
    (h : draft.push table attr = .ok next) :
    next.finished = draft.finished ∧
      next.current.fields = attr.field?.toList.foldl (placed table) draft.current.fields := by
  unfold push at h
  obtain ⟨noted, hnoted, hrest⟩ := bind_eq_ok_iff.mp h
  obtain ⟨names, rfl, -⟩ := noteName_eq_ok hnoted
  cases attr with
  | constant c =>
    cases hrest
    rw [finished_setCurrent, current_setCurrent]
    exact ⟨rfl, rfl⟩
  | field f =>
    obtain ⟨pushed, hpushed, hlast⟩ := bind_eq_ok_iff.mp hrest
    cases hlast
    rw [finished_setCurrent, current_setCurrent]
    exact ⟨rfl, hdraft.pushField_eq_ok hpushed⟩

end DefinitionDraft

/-! ## Lines -/

namespace Load

/-- The numbered line separates the request from the response. -/
def separates (line : List Char × Nat) : Bool :=
  decide (Statement.read? (stripComment line.1) = some .separator)

section Lines

variable (resolve : Resolver) (path : String) (table : TypeTable)

/-- The attribute that a numbered line stands for, with references resolved from a table on. -/
def attributeOf? (line : List Char × Nat) : Option Attribute :=
  match Statement.read? (stripComment line.1) with
  | some (.member attr) =>
    match (elaborateType resolve (.line path line.2) attr.cast attr.type).run table with
    | (.ok type, _) => (Attribute.make type attr.name attr.literal).toOption
    | (.error _, _) => none
  | _ => none

/-- The field that a numbered line stands for. -/
def fieldOf? (line : List Char × Nat) : Option Field :=
  (attributeOf? resolve path table line).bind Attribute.field?

/-- The fields in numbered lines, section by section. -/
def fieldsOf (lines : List (List Char × Nat)) : List (List Field) :=
  (lines.splitOnP separates).map fun lines => lines.filterMap (fieldOf? resolve path table)

end Lines

theorem attributeOf?_eq_none {resolve : Resolver} {path : String} {table : TypeTable}
    {line : List Char × Nat}
    (h : ∀ attr, Statement.read? (stripComment line.1) ≠ some (.member attr)) :
    attributeOf? resolve path table line = none := by
  unfold attributeOf?
  split
  · next attr hread => exact absurd hread (h attr)
  · rfl

/-- The fields in lines behind one more line. -/
theorem fieldsOf_cons (resolve : Resolver) (path : String) (table : TypeTable)
    (line : List Char × Nat) (lines : List (List Char × Nat)) :
    fieldsOf resolve path table (line :: lines) =
      if separates line then [] :: fieldsOf resolve path table lines
      else (fieldsOf resolve path table lines).modifyHead
        ((fieldOf? resolve path table line).toList ++ ·) := by
  unfold fieldsOf
  rw [List.splitOnP_cons_eq_if_modifyHead]
  split
  · rfl
  · obtain ⟨first, rest, hsplit⟩ :=
      List.exists_cons_of_ne_nil (List.splitOnP_ne_nil separates lines)
    rw [hsplit, List.modifyHead_cons, List.map_cons, List.map_cons, List.modifyHead_cons,
      List.filterMap_cons]
    cases fieldOf? resolve path table line <;> rfl

section Reading

variable {resolve : Resolver} {path : String} {number : Nat} {table after : TypeTable}
  {draft next : DefinitionDraft} {line : List Char} (hresolve : Resolves (· = table) resolve)

include hresolve

/-- What a line does that is read without loading anything. -/
theorem elaborateLine_eq_ok
    (h : (elaborateLine resolve (.line path number) draft line).run table = (.ok next, after)) :
    after = table ∧
      match Statement.read? (stripComment line) with
      | none => next = draft
      | some .separator => draft.separate = .ok next
      | some (.directive name hasArgument) => draft.direct name hasArgument = .ok next
      | some (.member _) => ∃ made, attributeOf? resolve path table (line, number) = some made ∧
          draft.push table made = .ok next := by
  unfold elaborateLine at h
  split at h
  · next hblank =>
    have hread : Statement.read? (stripComment line) = none := by
      rw [hblank]
      rfl
    cases h
    rw [hread]
    exact ⟨rfl, rfl⟩
  split at h
  · cases h
  next statement hread =>
  rw [hread]
  cases statement with
  | separator =>
    obtain ⟨hnext, rfl⟩ := ofLine_eq_ok h
    exact ⟨rfl, hnext⟩
  | directive name hasArgument =>
    obtain ⟨hnext, rfl⟩ := ofLine_eq_ok h
    exact ⟨rfl, hnext⟩
  | member attr =>
    obtain ⟨type, middle, htype, hrest⟩ := run_bind_eq_ok h
    obtain ⟨made, between, hmake, hpush⟩ := run_bind_eq_ok hrest
    obtain ⟨hmade, rfl⟩ := ofLine_eq_ok hmake
    rw [run_get_bind] at hpush
    obtain ⟨hnext, rfl⟩ := ofLine_eq_ok hpush
    have hkept := (triple_elaborateType hresolve (.line path number) attr.cast attr.type table
      rfl).2
    rw [htype] at hkept
    obtain ⟨rfl, -⟩ := hkept
    refine ⟨rfl, made, ?_, hnext⟩
    unfold attributeOf?
    rw [hread]
    dsimp only
    rw [htype]
    exact toOption_eq_some_iff.mpr hmade

/-- A line ends a section, or puts the field that it stands for into place, if it does. -/
theorem fields_of_elaborateLine (hdraft : draft.current.Counted table)
    (h : (elaborateLine resolve (.line path number) draft line).run table = (.ok next, after)) :
    if separates (line, number) then
      next.finished = draft.finished ++ [draft.current.fields] ∧ next.current.fields = []
    else next.finished = draft.finished ∧ next.current.fields =
      (fieldOf? resolve path table (line, number)).toList.foldl (placed table)
        draft.current.fields := by
  obtain ⟨rfl, hline⟩ := elaborateLine_eq_ok hresolve h
  unfold separates fieldOf?
  split at hline
  · next hread =>
    subst hline
    rw [attributeOf?_eq_none (by simp [hread]), hread]
    exact ⟨rfl, rfl⟩
  · next hread =>
    rw [hread]
    exact DefinitionDraft.fields_of_separate hline
  · next hread =>
    rw [attributeOf?_eq_none (by simp [hread]), hread]
    exact DefinitionDraft.fields_of_direct hline
  · next hread =>
    obtain ⟨made, hmade, hpush⟩ := hline
    rw [hread, hmade]
    exact DefinitionDraft.fields_of_push hdraft hpush

theorem elaborateLines_cons_eq_ok {lines : List (List Char)} (hdraft : draft.Valid table)
    (h : (elaborateLines resolve path number (line :: lines) draft).run table =
      (.ok next, after)) :
    ∃ middle, (elaborateLine resolve (.line path number) draft line).run table =
        (.ok middle, table) ∧ middle.Valid table ∧
      (elaborateLines resolve path (number + 1) lines middle).run table = (.ok next, after) := by
  obtain ⟨middle, between, hline, hlines⟩ := run_bind_eq_ok h
  have hvalid := (triple_elaborateLine hresolve (.line path number) draft line table
    ⟨rfl, hdraft⟩).2
  rw [hline] at hvalid
  obtain ⟨hkept, hmiddle⟩ : between = table ∧ middle.Valid between := hvalid
  rw [hkept] at hline hmiddle hlines
  exact ⟨middle, hline, hmiddle, hlines⟩

/-- Lines put the fields that they stand for into place, section by section. -/
theorem fields_of_elaborateLines {lines : List (List Char)} (hdraft : draft.Valid table)
    (h : (elaborateLines resolve path number lines draft).run table = (.ok next, after)) :
    ∃ first rest, fieldsOf resolve path table (lines.zipIdx number) = first :: rest ∧
      next.finished ++ [next.current.fields] =
        draft.finished ++ first.foldl (placed table) draft.current.fields ::
          rest.map (place table) := by
  induction lines generalizing number draft with
  | nil =>
    cases h
    exact ⟨[], [], rfl, rfl⟩
  | cons line lines ih =>
    obtain ⟨middle, hline, hmiddle, hlines⟩ := elaborateLines_cons_eq_ok hresolve hdraft h
    obtain ⟨first, rest, hrest, hnext⟩ := ih hmiddle hlines
    have hfields := fields_of_elaborateLine hresolve hdraft.current.offset hline
    rw [List.zipIdx_cons, fieldsOf_cons, hrest]
    split at hfields
    · next hseparates =>
      obtain ⟨hfinished, hcurrent⟩ := hfields
      refine ⟨[], first :: rest, if_pos hseparates, ?_⟩
      rw [hnext, hfinished, hcurrent, List.append_assoc]
      rfl
    · next hseparates =>
      obtain ⟨hfinished, hcurrent⟩ := hfields
      refine ⟨_, rest, if_neg hseparates, ?_⟩
      rw [hnext, hfinished, hcurrent, List.foldl_append]

/-- All lines for attributes that were read stand for one. -/
theorem isSome_attributeOf?_of_elaborateLines {lines : List (List Char)}
    (hdraft : draft.Valid table)
    (h : (elaborateLines resolve path number lines draft).run table = (.ok next, after)) :
    ∀ numbered ∈ lines.zipIdx number, ∀ attr,
      Statement.read? (stripComment numbered.1) = some (.member attr) →
      (attributeOf? resolve path table numbered).isSome := by
  induction lines generalizing number draft with
  | nil => exact nofun
  | cons line lines ih =>
    obtain ⟨middle, hline, hmiddle, hlines⟩ := elaborateLines_cons_eq_ok hresolve hdraft h
    rw [List.zipIdx_cons]
    refine List.forall_mem_cons.mpr ⟨fun attr hread => ?_, ih hmiddle hlines⟩
    have hstatement := (elaborateLine_eq_ok hresolve hline).2
    rw [hread] at hstatement
    obtain ⟨made, hmade, -⟩ := hstatement
    rw [hmade]
    rfl

end Reading

/-! ## Texts -/

section Texts

variable {tree : FileTree} {root : Path} {source : SourceFile} {text : String}

theorem resolves_lookup (tree : FileTree) (root : Path) (source : SourceFile) (table : TypeTable) :
    Resolves (· = table) (lookup tree root source) := by
  intro located written
  unfold lookup
  split
  · exact triple_throw fun _ h => h
  split
  · exact triple_throw fun _ h => h
  refine triple_bind triple_get fun read => triple_of_and _ ?_
  dsimp only
  split
  · exact triple_checkReference _ located written _ _
  · exact triple_throw fun _ h => h

/--
The fields that the text of a file declares, section by section, with references looked up in a
table.
-/
def declared (tree : FileTree) (root : Path) (source : SourceFile) (table : TypeTable)
    (text : String) : List (List Field) :=
  fieldsOf (lookup tree root source) source.path.text table ((Text.lines text.toList).zipIdx 1)

/-- The definition is what a text says, with references looked up in a table that holds them all. -/
structure Says (tree : FileTree) (root : Path) (source : SourceFile) (table : TypeTable)
    (text : String) (d : Definition) : Prop where
  read : (elaborateText (lookup tree root source) source text).run table = (.ok d, table)
  /-- All lines that are written as attributes stand for one. -/
  complete : ∀ line ∈ (Text.lines text.toList).zipIdx 1, ∀ attr,
    Statement.read? (stripComment line.1) = some (.member attr) →
    (attributeOf? (lookup tree root source) source.path.text table line).isSome

theorem says_of_elaborateText {table : TypeTable} {d : Definition}
    (h : (elaborateText (lookup tree root source) source text).run table = (.ok d, table)) :
    Says tree root source table text d := by
  obtain ⟨draft, hlines, -⟩ := elaborateText_eq_ok h
  exact ⟨h, isSome_attributeOf?_of_elaborateLines (resolves_lookup tree root source table)
    (DefinitionDraft.valid_empty table) hlines⟩

theorem Says.valid {table : TypeTable} {d : Definition} (h : Says tree root source table text d) :
    d.Valid table := by
  have hvalid := (triple_elaborateText (resolves_lookup tree root source table) source text table
    rfl).2
  rw [h.read] at hvalid
  exact hvalid.2.1

/-- The sections of a definition are the fields that its text declares, put into place. -/
theorem Says.fields {table later : TypeTable} {d : Definition}
    (h : Says tree root source table text d) (hlater : table.Grows later) :
    d.sections.map Section.fields = (declared tree root source table text).map (place later) := by
  have hresolve := resolves_lookup tree root source table
  obtain ⟨draft, hlines, rfl⟩ := elaborateText_eq_ok h.read
  obtain ⟨first, rest, hfields, hdraft⟩ :=
    fields_of_elaborateLines hresolve (DefinitionDraft.valid_empty table) hlines
  have hdeclared : declared tree root source table text = first :: rest := hfields
  have hplaced : (draft.finish source.name source.header).sections.map Section.fields =
      (declared tree root source table text).map (place table) := by
    rw [DefinitionDraft.fields_sections_finish, hdraft, hdeclared]
    rfl
  -- The types of all fields are valid, so their lengths stay the same while the table grows.
  rw [hplaced]
  refine List.map_congr_left fun fields hmem => place_congr fun f hf => ?_
  have hsection : place table fields ∈
      (draft.finish source.name source.header).sections.map Section.fields :=
    hplaced ▸ List.mem_map_of_mem hmem
  obtain ⟨s, hs, hsame⟩ := List.mem_map.mp hsection
  have hmember : f ∈ s.fields := hsame ▸ (sublist_place table fields).mem hf
  exact (((h.valid s hs).types f hmember).greatest_grows hlater).symm

/-- What a text says that was read is found behind the definitions that it refers to. -/
theorem says_of_loadText {path : Path} {table after : TypeTable} {id : Nat}
    (hbuilt : table.Built) (h : (loadText tree root path text).run table = (.ok id, after)) :
    ∃ source d, SourceFile.ofPath root path = .ok source ∧ after.definitions[id]? = some d ∧
      d.name = source.name ∧ Says tree root source (after.before id) text d := by
  unfold loadText at h
  split at h
  · cases h
  next source hsource =>
  rw [run_loadNew] at h
  split at h
  · cases h
  next hfree =>
  have hopen : Open [source.name] table := by
    refine ⟨hbuilt, fun name hname => ?_⟩
    rw [List.mem_singleton.mp hname]
    simpa using hfree
  obtain ⟨d, middle, htext, hname, rfl, haccepts, rfl⟩ := loadDefinition_eq_ok h
  have hbefore : (middle.push d haccepts).2.before middle.size = middle := by
    rw [(TypeTable.grows_push haccepts).before (Nat.le_refl _), TypeTable.before_size]
  refine ⟨source, d, hsource, ?_, hname, ?_⟩
  · rw [TypeTable.definitions_push]
    exact List.getElem?_concat_length
  · rw [hbefore]
    exact says_of_elaborateText (run_lookup_of_run_resolver hopen htext)

end Texts

/-! ## Sessions -/

/-- The definition is what some text of a file of its name says. -/
def Told (root : Path) (d : Definition) (table : TypeTable) : Prop :=
  ∃ tree source text, source.name = d.name ∧ Says tree root source table text d

/-- In a session every definition is what some text says. -/
theorem each_told_tableAfter (root : Path) (calls : List Call) :
    (tableAfter root calls).Each (Told root) := by
  have hinv : ∀ tree, ChainInvariant tree root (fun _ _ => True)
      (fun chain table => Open chain table ∧ table.Each (Told root)) :=
    fun tree => chainInvariant_each (Told root) (fun _ _ _ _ => trivial)
      fun source text d table _ hname hrun =>
        ⟨tree, source, text, hname, says_of_elaborateText hrun⟩
  exact (invariant_tableAfter hinv ⟨open_empty, TypeTable.each_empty _⟩ calls).2

/-- The fields of a section are those that are written in it, with padding at compound fields. -/
structure LaidOut (table : TypeTable) (declared : List Field) (s : Section) : Prop where
  /-- All fields have a greatest length. -/
  measured : ∀ f ∈ s.fields, (f.type.greatest? table).isSome
  inOrder : declared.Sublist s.fields
  onBytes : OnBytes table s.fields
  placements : ∃ placements : List Placement, placements.map Placement.field = declared ∧
    s.fields = placements.flatMap Placement.fields

theorem Says.laidOut {tree : FileTree} {root : Path} {source : SourceFile} {text : String}
    {table later : TypeTable} {d : Definition} (h : Says tree root source table text d)
    (hlater : table.Grows later) :
    List.Forall₂ (LaidOut later) (declared tree root source table text) d.sections := by
  refine forall₂_of_map_eq (h.fields hlater).symm fun s hs written hplaced => ?_
  obtain ⟨placements, hwritten, hplace⟩ := exists_placements later written
  exact
    { measured := (h.valid.grows hlater s hs).measured
      inOrder := hplaced ▸ sublist_place later written
      onBytes := hplaced ▸ onBytes_place later written
      placements := ⟨placements, hwritten, hplaced.symm.trans hplace⟩ }

/--
After a text was read, each section of its definition consists of the fields that the text declares
in it, in the same order, and of padding, narrower than a byte, directly before and behind compound
fields.  Each compound field starts on a byte boundary, and ends on one or at padding that leads to
the next one.  The same holds of every other definition in the table and of a text that says it.
-/
theorem laidOut_of_loadText (root : Path) (calls : List Call) (tree : FileTree) (path : Path)
    (text : String) :
    let before := tableAfter root calls
    let result := ((loadText tree root path text).run before).1
    let after := ((loadText tree root path text).run before).2
    (∀ id, result = .ok id →
      ∃ source d, SourceFile.ofPath root path = .ok source ∧ after.definitions[id]? = some d ∧
        d.name = source.name ∧ Says tree root source (after.before id) text d ∧
        List.Forall₂ (LaidOut after) (declared tree root source (after.before id) text)
          d.sections) ∧
      ∀ i d, after.definitions[i]? = some d →
        ∃ tree source text, source.name = d.name ∧ Says tree root source (after.before i) text d ∧
          List.Forall₂ (LaidOut after) (declared tree root source (after.before i) text)
            d.sections := by
  intro before result after
  refine ⟨?_, ?_⟩
  · intro id hresult
    obtain ⟨source, d, hsource, hd, hname, hsaid⟩ :=
      says_of_loadText (built_tableAfter root calls) (Prod.ext hresult rfl)
    exact ⟨source, d, hsource, hd, hname, hsaid, hsaid.laidOut (after.grows_before id)⟩
  · intro i d hd
    have htold := each_told_tableAfter root (calls ++ [.one tree path text])
    rw [tableAfter_concat] at htold
    obtain ⟨other, source, told, hname, hsaid⟩ := htold i d hd
    exact ⟨other, source, told, hname, hsaid, hsaid.laidOut (after.grows_before i)⟩

/-- Two compound fields of half a byte between other fields. -/
theorem laidOut_of_loadText_half_bytes :
    let root := Path.ofText "r"
    let tree := FileTree.ofTexts [("r/B.uavcan", "uint4 x\n")]
    let path := Path.ofText "r/A.uavcan"
    let text := "uint3 a\nB b\nB c\nuint5 d\n"
    let after := ((loadText tree root path text).run (tableAfter root [])).2
    ∃ d, after.definitions[1]? = some d ∧
      d.request.fields.map (fun f => (f.name, f.type.greatest after)) =
        [("a", 3), ("", 5), ("b", 4), ("", 4), ("c", 4), ("", 4), ("d", 5)] ∧
      ∃ written, written.map Field.name = ["a", "b", "c", "d"] ∧
        LaidOut after written d.request := by
  intro root tree path text after
  let file : SourceFile := ⟨path, ⟨"A", 0, {}⟩, ""⟩
  have hfile : SourceFile.ofPath root path = .ok file := by decide +kernel
  have hread : ((loadText tree root path text).run (tableAfter root [])).1 = .ok 1 := by
    decide +kernel
  obtain ⟨source, d, hsource, hd, -, -, hlaid⟩ :=
    (laidOut_of_loadText root [] tree path text).1 1 hread
  obtain rfl : file = source := Except.ok.inj (hfile.symm.trans hsource)
  obtain ⟨written, others, hrequest, -, hwritten⟩ := List.forall₂_cons_right_iff.mp hlaid
  have hnames : (declared tree root file (after.before 1) text).map (fun fields =>
      fields.map Field.name) = [["a", "b", "c", "d"]] := by decide +kernel
  have hfields : (after.definitions[1]?).map (fun d => d.request.fields.map fun f =>
      (f.name, f.type.greatest after)) =
      some [("a", 3), ("", 5), ("b", 4), ("", 4), ("c", 4), ("", 4), ("d", 5)] := by decide +kernel
  refine ⟨d, hd, ?_, written, ?_, hrequest⟩
  · exact Option.some.inj ((congrArg _ hd).symm.trans hfields)
  · rw [show declared tree root file (after.before 1) text = written :: others from hwritten]
      at hnames
    exact (List.cons.inj hnames).1

end Load

end BusSchema
