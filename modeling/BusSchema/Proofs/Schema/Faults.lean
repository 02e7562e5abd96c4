import BusSchema.Proofs.Schema.Elaboration

/-!
# Where the fault of a line comes from

Faults are of four kinds (`FaultKind`): the line itself is at fault, the length of the section that
it adds to, a reference, or a reference into the chain of names that are being read.  A line that is
refused for none of its own faults is refused by the resolver, for a reference that it holds, or
because its field does not fit into the section (`Load.elaborateLine_eq_error`); and a reference is
refused for what it leads to, because it leads into the chain, or where the file behind it is
refused (`Load.resolver_eq_error`).
-/

namespace BusSchema

/-- What a fault of a line is about. -/
inductive FaultKind
  /-- The line itself, or how it goes together with the lines before it. -/
  | own
  /-- The length of the section. -/
  | length
  /-- What a reference leads to. -/
  | reference
  /-- A reference into the chain of names that are being read. -/
  | recursion
deriving DecidableEq

namespace LineFault

/-- What the fault is about. -/
def kind : LineFault → FaultKind
  | fieldOverflow _ => .length
  | paddingOverflow => .length
  | referenceVersion _ => .reference
  | unknownNamespace _ _ => .reference
  | unknownDefinition _ => .reference
  | otherVersion _ _ _ _ => .reference
  | embeddedService _ => .reference
  | recursiveReference _ _ => .recursion
  | _ => .own

end LineFault

/-- What the error is about, if it is about a line. -/
def SchemaError.kind? : SchemaError → Option FaultKind
  | line _ _ fault => some fault.kind
  | _ => none

/-! ## Faults of a line itself -/

/-- If the computation fails, then by a fault of the line itself. -/
def OwnFaults {α : Type} (result : Except LineFault α) : Prop :=
  ∀ fault, result = .error fault → fault.kind = .own

namespace OwnFaults

variable {ε α β : Type}

theorem ok (a : α) : OwnFaults (.ok a) := by
  intro fault h
  cases h

theorem error {fault : LineFault} (h : fault.kind = .own) :
    OwnFaults (.error fault : Except LineFault α) := by
  intro other hother
  cases hother
  exact h

theorem bind {result : Except LineFault α} {f : α → Except LineFault β} (h : OwnFaults result)
    (hf : ∀ a, OwnFaults (f a)) : OwnFaults (result >>= f) := by
  intro fault hfault
  rcases bind_eq_error_iff.mp hfault with hfirst | ⟨a, -, hrest⟩
  · exact h fault hfirst
  · exact hf a fault hrest

theorem map {result : Except LineFault α} (f : α → β) (h : OwnFaults result) :
    OwnFaults (result.map f) := by
  cases result with
  | ok a => exact ok (f a)
  | error fault => exact error (h fault rfl)

theorem mapError {f : ε → LineFault} (result : Except ε α) (h : ∀ e, (f e).kind = .own) :
    OwnFaults (result.mapError f) := by
  cases result with
  | ok a => exact ok a
  | error e => exact error (h e)

theorem readNumber (digits : String) : OwnFaults (readNumber digits) := by
  unfold BusSchema.readNumber
  split
  · exact ok _
  · exact error rfl

theorem readPadding (digits : String) : OwnFaults (FieldType.readPadding digits) :=
  (readNumber digits).bind fun _ => mapError _ fun _ => rfl

theorem readNumeric (kind : ScalarKind) (digits : String) (cast : CastMode) :
    OwnFaults (FieldType.readNumeric kind digits cast) := by
  unfold FieldType.readNumeric
  split
  · exact error rfl
  · exact mapError _ fun _ => rfl

theorem elaborate (bound : BoundExpr) : OwnFaults bound.elaborate := by
  have hchecked : ∀ mode size, OwnFaults (if size = 0 then throw LineFault.emptyArray
      else pure (mode, size) : Except LineFault (ArrayMode × Nat)) := by
    intro mode size
    split
    · exact error rfl
    · exact ok _
  cases bound with
  | atMost digits => exact (readNumber digits).bind fun size => hchecked .dynamic size
  | below digits => exact (readNumber digits).bind fun size => hchecked .dynamic (size - 1)
  | exactly digits => exact (readNumber digits).bind fun size => hchecked .static size

theorem makeArray (table : TypeTable) (element : FieldType) (bound : BoundExpr) :
    OwnFaults (FieldType.makeArray table element bound) := by
  unfold FieldType.makeArray
  split
  · exact error rfl
  · refine (elaborate bound).bind fun made => ?_
    dsimp only
    split
    · exact error rfl
    · exact ok _

theorem makeConstant (name : String) (type : FieldType) (written : String) :
    OwnFaults (Constant.make name type written) := by
  unfold Constant.make
  split
  · refine (mapError _ fun _ => rfl).bind fun value => ?_
    dsimp only
    split
    · exact error rfl
    · exact ok _
  · exact error rfl

theorem makeAttribute (type : FieldType) (name literal : Option String) :
    OwnFaults (Attribute.make type name literal) := by
  unfold Attribute.make
  split
  · split
    · exact ok _
    · exact error rfl
  · split
    · exact error rfl
    · split
      · exact (makeConstant _ _ _).map _
      · exact ok _

theorem separate (draft : DefinitionDraft) : OwnFaults draft.separate := by
  unfold DefinitionDraft.separate
  split
  · exact error rfl
  · exact ok _

theorem direct (draft : DefinitionDraft) (name : String) (hasArgument : Bool) :
    OwnFaults (draft.direct name hasArgument) := by
  unfold DefinitionDraft.direct
  split
  · exact ok _
  · split
    · exact ok _
    · exact error rfl

theorem noteName (draft : DefinitionDraft) (name : String) : OwnFaults (draft.noteName name) := by
  unfold DefinitionDraft.noteName
  split
  · exact ok _
  · split
    · exact error rfl
    · exact ok _

end OwnFaults

/-! ## Faults of a section -/

theorem SectionDraft.kind_of_align {draft : SectionDraft} {fault : LineFault}
    (h : draft.align = .error fault) : fault.kind = .length := by
  unfold align at h
  split at h
  · cases h
  · split at h
    · cases h
      rfl
    · cases h

theorem SectionDraft.kind_of_append {table : TypeTable} {draft : SectionDraft} {f : Field}
    {fault : LineFault} (h : draft.append table f = .error fault) : fault.kind = .length := by
  unfold append at h
  split at h
  · cases h
    rfl
  · cases h

/-- A field is only refused for the length of the section that it is put into. -/
theorem SectionDraft.kind_of_pushField {table : TypeTable} {draft : SectionDraft} {f : Field}
    {fault : LineFault} (h : draft.pushField table f = .error fault) : fault.kind = .length := by
  unfold pushField at h
  split at h
  · rcases bind_eq_error_iff.mp h with hfirst | ⟨aligned, -, hrest⟩
    · exact kind_of_align hfirst
    · rcases bind_eq_error_iff.mp hrest with hmiddle | ⟨appended, -, hlast⟩
      · exact kind_of_append hmiddle
      · exact kind_of_align hlast
  · exact kind_of_append h

/-- An attribute that has no fault of its own is a field that cannot be put into the section. -/
theorem DefinitionDraft.push_eq_error {table : TypeTable} {draft : DefinitionDraft}
    {attr : Attribute} {fault : LineFault} (h : draft.push table attr = .error fault)
    (hfault : fault.kind ≠ .own) :
    ∃ f, attr = .field f ∧ draft.current.pushField table f = .error fault := by
  unfold DefinitionDraft.push at h
  rcases bind_eq_error_iff.mp h with hnoted | ⟨noted, hnoted, hrest⟩
  · exact absurd (OwnFaults.noteName _ _ fault hnoted) hfault
  obtain ⟨names, rfl, -⟩ := noteName_eq_ok hnoted
  cases attr with
  | constant c => cases hrest
  | field f =>
    rcases bind_eq_error_iff.mp hrest with hpush | ⟨pushed, -, hlast⟩
    · exact ⟨f, rfl, hpush⟩
    · cases hlast

/-! ## References that a line holds -/

/-- The references in a type that is written without a bound. -/
def ScalarExpr.references : ScalarExpr → List String
  | named reference => [reference]
  | _ => []

/-- The references in a type as written. -/
def TypeExpr.references : TypeExpr → List String
  | scalar type => type.references
  | array element _ => element.references

/-- The references in a statement. -/
def Statement.references : Statement → List String
  | member attr => attr.type.references
  | _ => []

/-- The references in a line of a file, as they are written there. -/
def referencesIn (line : List Char) : List String :=
  match Statement.read? (stripComment line) with
  | none => []
  | some statement => statement.references

theorem referencesIn_of_read? {line : List Char} {statement : Statement}
    (h : Statement.read? (stripComment line) = some statement) :
    referencesIn line = statement.references := by
  rw [referencesIn, h]

theorem referencesIn_of_blank {line : List Char} (h : stripComment line = []) :
    referencesIn line = [] := by
  rw [referencesIn, h]
  rfl

/-! ## Lines that are refused -/

namespace Load

variable {path : String} {number : Nat} {e : SchemaError} {table after : TypeTable}

theorem ofLine_eq_error {α : Type} {located : LineFault → SchemaError}
    {result : Except LineFault α} (h : (ofLine located result).run table = (.error e, after)) :
    ∃ fault, result = .error fault ∧ e = located fault ∧ table = after := by
  cases result with
  | ok a => cases h
  | error fault =>
    cases h
    exact ⟨fault, rfl, rfl, rfl⟩

theorem not_ofLine_error {α : Type} {result : Except LineFault α} (hown : OwnFaults result)
    (he : e.kind? ≠ some .own) :
    (ofLine (.line path number) result).run table ≠ (.error e, after) := by
  intro h
  obtain ⟨fault, hresult, rfl, -⟩ := ofLine_eq_error h
  exact he (congrArg some (hown fault hresult))

section Elaboration

variable {resolve : Resolver}

/-- Reading a type fails by a fault of its own, or where a reference in it does. -/
theorem elaborateScalar_eq_error {cast : CastMode} {expr : ScalarExpr}
    (he : e.kind? ≠ some .own)
    (h : (elaborateScalar resolve (.line path number) cast expr).run table = (.error e, after)) :
    ∃ written ∈ expr.references,
      (resolve (.line path number) written).run table = (.error e, after) := by
  cases expr with
  | padding digits => exact absurd h (not_ofLine_error (OwnFaults.readPadding _) he)
  | boolean => cases h
  | numeric kind digits => exact absurd h (not_ofLine_error (OwnFaults.readNumeric _ _ _) he)
  | named reference =>
    rcases run_bind_eq_error h with hresolve | ⟨id, middle, -, hlast⟩
    · exact ⟨reference, List.mem_singleton_self reference, hresolve⟩
    · cases hlast

theorem elaborateType_eq_error {cast : CastMode} {expr : TypeExpr} (he : e.kind? ≠ some .own)
    (h : (elaborateType resolve (.line path number) cast expr).run table = (.error e, after)) :
    ∃ written ∈ expr.references,
      (resolve (.line path number) written).run table = (.error e, after) := by
  cases expr with
  | scalar type => exact elaborateScalar_eq_error he h
  | array element bound =>
    rcases run_bind_eq_error h with hscalar | ⟨type, middle, -, hrest⟩
    · exact elaborateScalar_eq_error he hscalar
    · rw [run_get_bind] at hrest
      exact absurd hrest (not_ofLine_error (OwnFaults.makeArray _ _ _) he)

/-- The line stands for a field; with what it refers to, loading leaves the last table. -/
def HoldsField (resolve : Resolver) (located : LineFault → SchemaError) (line : List Char)
    (before : TypeTable) (f : Field) (after : TypeTable) : Prop :=
  ∃ attr type, Statement.read? (stripComment line) = some (.member attr) ∧
    (elaborateType resolve located attr.cast attr.type).run before = (.ok type, after) ∧
    Attribute.make type attr.name attr.literal = .ok (.field f)

/--
A line that has no fault of its own is only refused because of a reference that it holds, or because
its field cannot be put into the section.
-/
theorem elaborateLine_eq_error {draft : DefinitionDraft} {line : List Char}
    (he : e.kind? ≠ some .own)
    (h : (elaborateLine resolve (.line path number) draft line).run table = (.error e, after)) :
    (∃ written ∈ referencesIn line,
        (resolve (.line path number) written).run table = (.error e, after)) ∨
      ∃ f fault, HoldsField resolve (.line path number) line table f after ∧
        draft.current.pushField after f = .error fault ∧ e = .line path number fault := by
  unfold elaborateLine at h
  split at h
  · cases h
  split at h
  · cases h
    exact absurd rfl he
  next statement hread =>
  cases statement with
  | separator => exact absurd h (not_ofLine_error (OwnFaults.separate _) he)
  | directive name hasArgument => exact absurd h (not_ofLine_error (OwnFaults.direct _ _ _) he)
  | member attr =>
    rcases run_bind_eq_error h with htype | ⟨type, middle, htype, hrest⟩
    · obtain ⟨written, hwritten, hresolve⟩ := elaborateType_eq_error he htype
      exact Or.inl ⟨written, (referencesIn_of_read? hread).symm ▸ hwritten, hresolve⟩
    rcases run_bind_eq_error hrest with hmake | ⟨made, last, hmake, hpush⟩
    · exact absurd hmake (not_ofLine_error (OwnFaults.makeAttribute _ _ _) he)
    obtain ⟨hmade, rfl⟩ := ofLine_eq_ok hmake
    rw [run_get_bind] at hpush
    obtain ⟨fault, hpushed, rfl, rfl⟩ := ofLine_eq_error hpush
    have hfault : fault.kind ≠ .own := fun hown => he (congrArg some hown)
    obtain ⟨f, rfl, hfield⟩ := DefinitionDraft.push_eq_error hpushed hfault
    exact Or.inr ⟨f, fault, ⟨attr, type, hread, htype, hmade⟩, hfield, rfl⟩

/-- Reading lines fails at one of them, with the draft of the lines before it. -/
theorem elaborateLines_eq_error {lines : List (List Char)} {draft : DefinitionDraft}
    (h : (elaborateLines resolve path number lines draft).run table = (.error e, after)) :
    ∃ front line rest next middle, lines = front ++ line :: rest ∧
      (elaborateLines resolve path number front draft).run table = (.ok next, middle) ∧
      (elaborateLine resolve (.line path (number + front.length)) next line).run middle =
        (.error e, after) := by
  induction lines generalizing number draft table with
  | nil => cases h
  | cons line rest ih =>
    rcases run_bind_eq_error h with hfirst | ⟨next, middle, hfirst, hrest⟩
    · exact ⟨[], line, rest, draft, table, rfl, rfl, hfirst⟩
    obtain ⟨front, failing, behind, last, before, rfl, hfront, hline⟩ := ih hrest
    refine ⟨line :: front, failing, behind, last, before, rfl, ?_, ?_⟩
    · have hrun := run_bind (elaborateLine resolve (.line path number) draft line)
        (elaborateLines resolve path (number + 1) front) table
      rw [hfirst] at hrun
      exact hrun.trans hfront
    · have hnumber : number + (line :: front).length = number + 1 + front.length := by
        rw [List.length_cons]
        omega
      rw [hnumber]
      exact hline

/-- A text is refused at one of its lines, with the draft of the lines before it. -/
theorem elaborateText_eq_error {source : SourceFile} {text : String}
    (h : (elaborateText resolve source text).run table = (.error e, after)) :
    ∃ front line rest draft middle, Text.lines text.toList = front ++ line :: rest ∧
      (elaborateLines resolve source.path.text 1 front {}).run table = (.ok draft, middle) ∧
      (elaborateLine resolve (.line source.path.text (front.length + 1)) draft line).run middle =
        (.error e, after) := by
  rcases run_bind_eq_error h with hlines | ⟨draft, middle, -, hlast⟩
  · obtain ⟨front, line, rest, draft, middle, hsplit, hfront, hline⟩ :=
      elaborateLines_eq_error hlines
    rw [Nat.add_comm] at hline
    exact ⟨front, line, rest, draft, middle, hsplit, hfront, hline⟩
  · cases hlast

end Elaboration

/-! ## References that are refused -/

/-- The error is about what a reference leads to, or about a file or name and no line. -/
def Unresolved (e : SchemaError) : Prop :=
  e.kind? = none ∨ e.kind? = some .reference

theorem unresolved_of_checkReference {text : String} {reference : Reference} {id : Nat}
    (h : (checkReference (.line path number) text reference id).run table = (.error e, after)) :
    Unresolved e := by
  unfold checkReference at h
  rw [run_get_bind] at h
  split at h
  · cases h
    exact Or.inr rfl
  next d _ =>
  have hembed : (if d.isService = true then
      (throw (SchemaError.line path number (.embeddedService reference.fullName)) : Load Unit) >>=
        fun _ => pure id
      else pure id : Load Nat).run table = (.error e, after) → Unresolved e := by
    intro hembed
    split at hembed
    · cases hembed
      exact Or.inr rfl
    · cases hembed
  dsimp only at h
  split at h
  · split at h
    · cases h
      exact Or.inr rfl
    · exact hembed h
  · exact hembed h

theorem unresolved_of_locate {tree : FileTree} {root : Path} {reference : Reference}
    {text : String} (h : reference.locate tree root text (.line path number) = .error e) :
    Unresolved e := by
  unfold Reference.locate at h
  dsimp only at h
  split at h
  · split at h
    · cases h
      exact Or.inl rfl
    · split at h
      · cases h
        exact Or.inr rfl
      · cases h
  · cases h
    exact Or.inr rfl

theorem unresolved_of_readSource {tree : FileTree} {source : SourceFile}
    (h : (readSource tree source).run table = (.error e, after)) : Unresolved e := by
  unfold readSource at h
  split at h
  · cases h
  · cases h
    exact Or.inl rfl

theorem unresolved_of_insert {d : Definition} (h : (insert d).run table = (.error e, after)) :
    Unresolved e := by
  rw [run_insert] at h
  split at h
  · cases h
  · cases h
    exact Or.inl rfl

theorem unresolved_of_ofPath {root path : Path} (h : SourceFile.ofPath root path = .error e) :
    Unresolved e := by
  unfold SourceFile.ofPath at h
  cases hdescribe : SourceFile.describe root path with
  | ok source =>
    rw [hdescribe] at h
    cases h
  | error fault =>
    rw [hdescribe] at h
    cases h
    exact Or.inl rfl

theorem unresolved_of_walk {tree : FileTree} {directory : Path}
    (h : tree.walk directory = .error e) : Unresolved e := by
  -- The directories of a listing are deeper, and no deeper than the tree.
  induction hdepth : tree.depth - directory.components.length using Nat.strongRecOn
    generalizing directory with
  | _ remaining ih =>
  subst hdepth
  rw [FileTree.walk] at h
  split at h
  · cases h
    exact Or.inl rfl
  split at h
  · cases h
    exact Or.inl rfl
  next below hbelow =>
  rcases bind_eq_error_iff.mp h with hdeeper | ⟨deeper, -, hlast⟩
  · obtain ⟨⟨d, hd⟩, -, hwalk⟩ := exists_of_mapM_eq_error hdeeper
    obtain ⟨hlonger, hbound⟩ := FileTree.mem_directories_length hbelow hd
    exact ih _ (by omega) hwalk rfl
  · cases hlast

theorem unresolved_of_selectSources {tree : FileTree} {root : Path}
    (h : selectSources tree root = .error e) : Unresolved e := by
  unfold selectSources at h
  rcases bind_eq_error_iff.mp h with hwalk | ⟨paths, -, hrest⟩
  · exact unresolved_of_walk hwalk
  rcases bind_eq_error_iff.mp hrest with hpaths | ⟨sources, -, hlast⟩
  · obtain ⟨path, -, hpath⟩ := exists_of_mapM_eq_error hpaths
    exact unresolved_of_ofPath hpath
  · cases hlast

/--
A reference is refused for what it leads to, because it leads into the chain, or where the file
behind it is refused.
-/
theorem resolver_eq_error {tree : FileTree} {root : Path} {chain : List String}
    {source : SourceFile} {written : String}
    (h : (resolver tree root chain source (.line path number) written).run table =
      (.error e, after)) :
    Unresolved e ∨ ∃ reference target, Reference.read? source.nameSpace written = some reference ∧
      reference.locate tree root written (.line path number) = .ok target ∧
      ((reference.fullName ∈ chain ∨ target.name ∈ chain) ∧
          e = .line path number (.recursiveReference chain reference.fullName) ∨
        ∃ targetText, tree.read? target.path = .ok targetText ∧ target.name ∉ chain ∧
          table.contains target.name = false ∧
          (loadDefinition tree root (chain ++ [target.name]) target targetText).run table =
            (.error e, after)) := by
  cases hreference : Reference.read? source.nameSpace written with
  | none =>
    rw [resolver_of_read?_eq_none hreference] at h
    cases h
    exact Or.inl (Or.inr rfl)
  | some reference =>
  cases hlocate : reference.locate tree root written (.line path number) with
  | error e =>
    rw [resolver_of_locate_eq_error hreference hlocate] at h
    cases h
    exact Or.inl (unresolved_of_locate hlocate)
  | ok target =>
  rw [resolver_of_locate_eq_ok hreference hlocate, follow, run_get_bind] at h
  split at h
  · exact Or.inl (unresolved_of_checkReference h)
  split at h
  · next hchain =>
    cases h
    exact Or.inr ⟨reference, target, rfl, hlocate, Or.inl ⟨hchain, rfl⟩⟩
  next hchain =>
  have htarget : target.name ∉ chain := fun hmem => hchain (Or.inr hmem)
  rcases run_bind_eq_error h with hrun | ⟨targetText, middle, hrun, hrest⟩
  · exact Or.inl (unresolved_of_readSource hrun)
  obtain ⟨hread, rfl⟩ := readSource_eq_ok hrun
  rw [run_get_bind] at hrest
  split at hrest
  · cases hrest
    exact Or.inl (Or.inl rfl)
  next hfree =>
  rcases run_bind_eq_error hrest with hload | ⟨id, loaded, -, hcheck⟩
  · exact Or.inr ⟨reference, target, rfl, hlocate,
      Or.inr ⟨targetText, hread, htarget, by simpa using hfree, hload⟩⟩
  · exact Or.inl (unresolved_of_checkReference hcheck)

end Load

end BusSchema
