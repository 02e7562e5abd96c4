import BusSchema.Proofs.Layout.Lengths
import BusSchema.Proofs.Schema.Faults

/-!
# Sections that are too long

While a section is read, its fields are counted one behind the other, whether it is a union or not.
So a field is refused for its length exactly if the fields up to it, padding included, do not fit
into a section without the union flag (`SectionDraft.pushField_eq_error`), and what is accepted is a
section that fits without the flag (`Load.fits_of_loadText`).

For a section that is no union this is its own length.  The length of a union is the greatest of its
fields with a tag: unions are refused that would fit, and accepted although their tag does not fit
any more (`Load.union_counted_as_sequence`).
-/

namespace BusSchema

theorem isSome_of_mapM {α β : Type} {f : α → Option β} {items : List α} {results : List β}
    (h : items.mapM f = some results) : ∀ a ∈ items, (f a).isSome := by
  induction items generalizing results with
  | nil =>
    intro a ha
    cases ha
  | cons first rest ih =>
    rw [List.mapM_cons] at h
    obtain ⟨b, hb, hrest⟩ := Option.bind_eq_some_iff.mp h
    obtain ⟨others, hothers, -⟩ := Option.bind_eq_some_iff.mp hrest
    refine List.forall_mem_cons.mpr ⟨?_, ih hothers⟩
    rw [hb]
    rfl

/-! ## Fields one behind the other -/

namespace Section

variable {table : TypeTable}

/-- The greatest length of a section whose fields all have one. -/
theorem greatest?_of_measured {s : Section}
    (hmeasured : ∀ f ∈ s.fields, (f.type.greatest? table).isSome) :
    let lengths := s.fields.map fun f => f.type.greatest table
    s.greatest? table =
      if s.fields.isEmpty then some 0
      else if s.isUnion then fit32? (maximum lengths + unionTagWidth s.fields.length)
      else fit32? (total lengths) := by
  intro lengths
  have hlengths : s.fields.mapM (fun f => f.type.greatestWith table.spans) = some lengths :=
    mapM_eq_some_of_isSome hmeasured
  unfold greatest? greatestWith
  rw [hlengths]
  rfl

/-- Fields have no common length if one of them has none or if they do not fit. -/
theorem greatest?_eq_none_iff {fields : List Field} :
    ({ fields } : Section).greatest? table = none ↔
      (∃ f ∈ fields, f.type.greatest? table = none) ∨
        max32 < total (fields.map fun f => f.type.greatest table) := by
  by_cases hmeasured : ∀ f ∈ fields, (f.type.greatest? table).isSome
  · have hnone : ¬∃ f ∈ fields, f.type.greatest? table = none := by
      rintro ⟨f, hf, hlength⟩
      have hsome := hmeasured f hf
      rw [hlength] at hsome
      cases hsome
    rw [greatest?_of_measured hmeasured, or_iff_right hnone]
    cases fields with
    | nil => simp [total]
    | cons first rest => exact fit32?_eq_none_iff
  · push Not at hmeasured
    obtain ⟨f, hf, hlength⟩ := hmeasured
    refine iff_of_true ?_ (Or.inl ⟨f, hf, by simpa using hlength⟩)
    unfold greatest? greatestWith
    split
    · next hempty =>
      have hfields : fields = [] := List.isEmpty_iff.mp hempty
      rw [hfields] at hf
      cases hf
    · cases hmap : fields.mapM fun f => f.type.greatestWith table.spans with
      | none => rfl
      | some lengths => exact absurd (isSome_of_mapM hmap f hf) hlength

/-- Fields that do not fit still do not fit with more fields behind them. -/
theorem greatest?_eq_none_of_isPrefix {fields later : List Field} (hbegins : fields <+: later)
    (h : ({ fields } : Section).greatest? table = none) :
    ({ fields := later } : Section).greatest? table = none := by
  obtain ⟨added, rfl⟩ := hbegins
  rw [greatest?_eq_none_iff] at h ⊢
  rcases h with ⟨f, hf, hlength⟩ | htotal
  · exact Or.inl ⟨f, List.mem_append_left added hf, hlength⟩
  · right
    rw [List.map_append, total_append]
    exact Nat.lt_of_lt_of_le htotal (Nat.le_add_right _ _)

/-- A valid section fits without the union flag. -/
theorem Valid.greatest?_sequence {s : Section} (hs : s.Valid table) :
    ({ s with isUnion := false } : Section).greatest? table =
      some (total (s.fields.map fun f => f.type.greatest table)) := by
  have hvalid : ({ s with isUnion := false } : Section).Valid table :=
    ⟨hs.types, hs.named, hs.distinct, hs.measured, hs.bounded⟩
  exact hvalid.greatest?_eq rfl

/-- A valid section only fails to fit if it is a union that is too long with its tag. -/
theorem Valid.greatest?_eq_none_iff {s : Section} (hs : s.Valid table) :
    s.greatest? table = none ↔ s.isUnion = true ∧
      max32 < maximum (s.fields.map fun f => f.type.greatest table) +
        unionTagWidth s.fields.length := by
  cases hunion : s.isUnion with
  | false =>
    rw [hs.greatest?_eq hunion]
    simp
  | true =>
    rw [greatest?_of_measured hs.measured, hunion]
    cases s.fields with
    | nil =>
      rw [List.map_nil]
      decide
    | cons first rest => exact fit32?_eq_none_iff.trans (and_iff_right rfl).symm

end Section

/-- Fields with padding behind them up to the next byte boundary. -/
def padded (table : TypeTable) (fields : List Field) : List Field :=
  match Padding.ofWidth (SectionDraft.gap (total (fields.map fun f => f.type.greatest table))) with
  | .error _ => fields
  | .ok padding => fields ++ [Field.ofPadding padding]

/-- Fields with one more behind them, which lies between byte boundaries if it is compound. -/
def placed (table : TypeTable) (fields : List Field) (field : Field) : List Field :=
  if field.type.isCompound then padded table (padded table fields ++ [field])
  else fields ++ [field]

theorem isPrefix_padded (table : TypeTable) (fields : List Field) :
    fields <+: padded table fields := by
  unfold padded
  split
  · exact List.prefix_refl fields
  · exact List.prefix_append fields _

namespace SectionDraft

variable {table : TypeTable} {draft next : SectionDraft} {field : Field} {fault : LineFault}

/-- The offset is the sum of the lengths of the fields. -/
def Counted (table : TypeTable) (draft : SectionDraft) : Prop :=
  draft.offset = total (draft.fields.map fun f => f.type.greatest table)

theorem Counted.extend (hdraft : draft.Counted table) {length : Nat}
    (hlength : field.type.greatest? table = some length) :
    (draft.extend field length).Counted table := by
  have hgreatest : field.type.greatest table = length := by
    rw [FieldType.greatest, hlength]
    rfl
  have hlast : total [length] = length := rfl
  unfold Counted SectionDraft.extend
  rw [List.map_append, List.map_singleton, total_append, hgreatest, hlast, ← hdraft]

theorem Counted.align_eq_ok (hdraft : draft.Counted table) (h : draft.align = .ok next) :
    next.Counted table ∧ next.fields = padded table draft.fields := by
  unfold padded
  rw [← hdraft]
  unfold align at h
  cases hgap : Padding.ofWidth (gap draft.offset) with
  | error e =>
    rw [hgap] at h
    cases h
    exact ⟨hdraft, rfl⟩
  | ok p =>
    rw [hgap] at h
    simp only at h
    split at h
    · cases h
    · next offset hoffset =>
      obtain ⟨rfl, -⟩ := fit32?_eq_some_iff.mp hoffset
      cases h
      exact ⟨hdraft.extend rfl, rfl⟩

theorem Counted.align_eq_error (hdraft : draft.Counted table) (h : draft.align = .error fault) :
    fault = .paddingOverflow ∧
      ({ fields := padded table draft.fields } : Section).greatest? table = none := by
  unfold padded
  rw [← hdraft]
  unfold align at h
  cases hgap : Padding.ofWidth (gap draft.offset) with
  | error e =>
    rw [hgap] at h
    cases h
  | ok p =>
    rw [hgap] at h
    simp only at h
    split at h
    · next hoffset =>
      cases h
      refine ⟨rfl, Section.greatest?_eq_none_iff.mpr (Or.inr ?_)⟩
      have hextended : (draft.extend (Field.ofPadding p) p.width).Counted table :=
        hdraft.extend rfl
      exact hextended ▸ fit32?_eq_none_iff.mp hoffset
    · cases h

theorem Counted.append_eq_error (hdraft : draft.Counted table)
    (h : draft.append table field = .error fault) :
    fault = .fieldOverflow field.name ∧
      ({ fields := draft.fields ++ [field] } : Section).greatest? table = none := by
  unfold append at h
  split at h
  · next hoffset =>
    cases h
    refine ⟨rfl, Section.greatest?_eq_none_iff.mpr ?_⟩
    cases hlength : field.type.greatest? table with
    | none => exact Or.inl ⟨field, List.mem_append_right _ List.mem_cons_self, hlength⟩
    | some length =>
      rw [hlength] at hoffset
      have hextended := hdraft.extend hlength
      exact Or.inr (hextended ▸ fit32?_eq_none_iff.mp hoffset)
  · cases h

theorem Counted.append_eq_ok (hdraft : draft.Counted table)
    (h : draft.append table field = .ok next) :
    next.Counted table ∧ next.fields = draft.fields ++ [field] := by
  obtain ⟨length, hlength, -, rfl⟩ := SectionDraft.append_eq_ok h
  exact ⟨hdraft.extend hlength, rfl⟩

/-- A field is refused if the fields up to it do not fit one behind the other. -/
theorem pushField_eq_error (hdraft : draft.Counted table)
    (h : draft.pushField table field = .error fault) :
    (fault = .fieldOverflow field.name ∨ fault = .paddingOverflow ∧ field.type.isCompound) ∧
      ({ fields := placed table draft.fields field } : Section).greatest? table = none := by
  unfold pushField at h
  unfold placed
  split at h
  · next hcompound =>
    rw [if_pos hcompound]
    rcases bind_eq_error_iff.mp h with hfirst | ⟨aligned, hfirst, hrest⟩
    · obtain ⟨rfl, hlong⟩ := hdraft.align_eq_error hfirst
      refine ⟨Or.inr ⟨rfl, hcompound⟩, Section.greatest?_eq_none_of_isPrefix ?_ hlong⟩
      exact (List.prefix_append _ _).trans (isPrefix_padded _ _)
    obtain ⟨haligned, hfields⟩ := hdraft.align_eq_ok hfirst
    rw [← hfields]
    rcases bind_eq_error_iff.mp hrest with hmiddle | ⟨appended, hmiddle, hlast⟩
    · obtain ⟨rfl, hlong⟩ := haligned.append_eq_error hmiddle
      exact ⟨Or.inl rfl, Section.greatest?_eq_none_of_isPrefix (isPrefix_padded _ _) hlong⟩
    obtain ⟨happended, hfields⟩ := haligned.append_eq_ok hmiddle
    obtain ⟨rfl, hlong⟩ := happended.align_eq_error hlast
    rw [← hfields]
    exact ⟨Or.inr ⟨rfl, hcompound⟩, hlong⟩
  · next hcompound =>
    rw [if_neg hcompound]
    obtain ⟨rfl, hlong⟩ := hdraft.append_eq_error h
    exact ⟨Or.inl rfl, hlong⟩

end SectionDraft

/-! ## Files that are refused -/

namespace LineFault

/-- The fault is about the length of a section. -/
def isOverflow : LineFault → Bool
  | fieldOverflow _ => true
  | paddingOverflow => true
  | _ => false

theorem isOverflow_iff {fault : LineFault} : fault.isOverflow = true ↔ fault.kind = .length := by
  cases fault <;> simp [isOverflow, kind]

end LineFault

/-- The error is about the length of a section of some file. -/
def SchemaError.isOverflow : SchemaError → Bool
  | line _ _ fault => fault.isOverflow
  | _ => false

theorem SchemaError.kind?_of_isOverflow {e : SchemaError} (h : e.isOverflow = true) :
    e.kind? = some .length := by
  cases e with
  | line path number fault => exact congrArg some (LineFault.isOverflow_iff.mp h)
  | file path fault => cases h
  | rootNotFound root => cases h
  | unreadable path reason => cases h
  | duplicateName name => cases h
  | duplicateSubject isService id first second => cases h
  | unknownType name => cases h

namespace Load

variable {path : String} {number : Nat} {e : SchemaError} {table after : TypeTable}

theorem not_unresolved_of_isOverflow (he : e.isOverflow = true) : ¬Unresolved e := by
  have hkind := SchemaError.kind?_of_isOverflow he
  rintro (hnone | hreference)
  · rw [hkind] at hnone
    cases hnone
  · rw [hkind] at hreference
    cases hreference

/-- A reference only fails for the length of a section where reading the file behind it does. -/
theorem resolver_eq_overflow {tree : FileTree} {root : Path} {chain : List String}
    {source : SourceFile} {written : String} (he : e.isOverflow = true)
    (h : (resolver tree root chain source (.line path number) written).run table =
      (.error e, after)) :
    ∃ target targetText, Located tree root target ∧ tree.read? target.path = .ok targetText ∧
      target.name ∉ chain ∧ table.contains target.name = false ∧
      (loadDefinition tree root (chain ++ [target.name]) target targetText).run table =
        (.error e, after) := by
  rcases resolver_eq_error h with
    hunresolved | ⟨reference, target, hreference, hlocate, ⟨-, rfl⟩ | hload⟩
  · exact absurd hunresolved (not_unresolved_of_isOverflow he)
  · cases he
  · obtain ⟨targetText, hread, htarget, hfree, hload⟩ := hload
    exact ⟨target, targetText, ⟨_, written, reference, _, hreference, hlocate⟩, hread, htarget,
      hfree, hload⟩

/--
A text that is read from a table on has a field in the line of the given number, and the fields of
the section up to it, padding included, do not fit one behind the other.
-/
def RefusedAt (resolve : Resolver) (source : SourceFile) (text : String) (start : TypeTable)
    (number : Nat) (fault : LineFault) : Prop :=
  ∃ front line rest draft before f after,
    Text.lines text.toList = front ++ line :: rest ∧ number = front.length + 1 ∧
    (elaborateLines resolve source.path.text 1 front {}).run start = (.ok draft, before) ∧
    HoldsField resolve (.line source.path.text number) line before f after ∧
    (fault = .fieldOverflow f.name ∨ fault = .paddingOverflow ∧ f.type.isCompound) ∧
    ({ fields := placed after draft.current.fields f } : Section).greatest? after = none

/-- A file that is refused while a text is read: the text itself, or a file that is read for it. -/
def Refused (tree : FileTree) (root : Path) (chain : List String) (source : SourceFile)
    (text : String) (table : TypeTable) (e : SchemaError) : Prop :=
  ∃ number fault,
    e = .line source.path.text number fault ∧
        RefusedAt (resolver tree root chain source) source text table number fault ∨
      ∃ target targetText below start, e = .line target.path.text number fault ∧
        Located tree root target ∧ tree.read? target.path = .ok targetText ∧ table.Grows start ∧
        RefusedAt (resolver tree root below target) target targetText start number fault

/-- Reading a definition only fails for the length of a section where its fields do not fit. -/
theorem refused_of_loadDefinition {tree : FileTree} {root : Path} {front : List String}
    {source : SourceFile} {text : String} (hnew : source.name ∉ front)
    (hopen : Open (front ++ [source.name]) table) (he : e.isOverflow = true)
    (h : (loadDefinition tree root (front ++ [source.name]) source text).run table =
      (.error e, after)) :
    Refused tree root (front ++ [source.name]) source text table e := by
  induction hsources : sourcesOutside tree root (front ++ [source.name]) using Nat.strongRecOn
    generalizing front source text table with
  | _ remaining ih =>
  subst hsources
  have hinv := chainInvariant_open tree root
  have hresolve := resolves_resolver_of_chainInvariant hinv (front ++ [source.name]) source
  rw [loadDefinition_eq] at h
  rcases run_bind_eq_error h with htext | ⟨d, middle, -, hinsert⟩
  swap
  · exact absurd (unresolved_of_insert hinsert) (not_unresolved_of_isOverflow he)
  obtain ⟨before, line, rest, draft, middle, hsplit, hbefore, hline⟩ := elaborateText_eq_error htext
  have hdraft := triple_elaborateLines hresolve source.path.text 1 before {} table
    ⟨hopen, DefinitionDraft.valid_empty table⟩
  rw [hbefore] at hdraft
  obtain ⟨hgrows, hmiddle, hvalid⟩ := hdraft
  have hkind : e.kind? ≠ some .own := by
    rw [SchemaError.kind?_of_isOverflow he]
    decide
  rcases elaborateLine_eq_error hkind hline with
    ⟨written, -, hreference⟩ | ⟨f, fault, hfield, hpush, rfl⟩
  · -- The file is only refused for another one that its line refers to.
    obtain ⟨target, targetText, hlocated, hread, htarget, hfree, hload⟩ :=
      resolver_eq_overflow he hreference
    have hfewer := sourcesOutside_lt hlocated.mem_sources htarget
    have hbelow := hinv.opens _ _ middle htarget hfree hmiddle
    obtain ⟨number, fault, hself | hdeeper⟩ := ih _ hfewer htarget hbelow hload rfl
    · exact ⟨number, fault, Or.inr ⟨target, targetText, _, middle, hself.1, hlocated, hread, hgrows,
        hself.2⟩⟩
    · obtain ⟨last, lastText, below, start, hlast, hlocated, hread, hstart, hrefused⟩ := hdeeper
      exact ⟨number, fault, Or.inr ⟨last, lastText, below, start, hlast, hlocated, hread,
        hgrows.trans hstart, hrefused⟩⟩
  · obtain ⟨attr, type, hstatement, htype, hmade⟩ := hfield
    have hlater := triple_elaborateType hresolve (.line source.path.text (before.length + 1))
      attr.cast attr.type middle hmiddle
    rw [htype] at hlater
    have hcounted : draft.current.Counted after := (hvalid.grows hlater.1).current.offset
    obtain ⟨hfault, hlong⟩ := SectionDraft.pushField_eq_error hcounted hpush
    exact ⟨before.length + 1, fault, Or.inl ⟨rfl, before, line, rest, draft, middle, f, after,
      hsplit, rfl, hbefore, ⟨attr, type, hstatement, htype, hmade⟩, hfault, hlong⟩⟩

/-! ## Texts -/

section Text

variable {tree : FileTree} {root path : Path} {text : String}

/-- The definition in a text is found under the name that its path gives. -/
theorem loadText_eq_ok {id : Nat} (h : (loadText tree root path text).run table = (.ok id, after)) :
    ∃ source, SourceFile.ofPath root path = .ok source ∧ after.find? source.name = some id := by
  unfold loadText at h
  split at h
  · cases h
  next source hsource => exact ⟨source, hsource, find?_of_loadNew h⟩

/-- A text is only refused for the length of a section where its fields do not fit. -/
theorem loadText_eq_overflow (hbuilt : table.Built) (he : e.isOverflow = true)
    (h : (loadText tree root path text).run table = (.error e, after)) :
    ∃ source, SourceFile.ofPath root path = .ok source ∧
      Refused tree root [source.name] source text table e := by
  unfold loadText at h
  split at h
  · next hpath =>
    cases h
    exact absurd (unresolved_of_ofPath hpath) (not_unresolved_of_isOverflow he)
  next source hsource =>
  rw [run_loadNew] at h
  split at h
  · cases h
    cases he
  next hfree =>
  have hopen : Open ([] ++ [source.name]) table := by
    refine ⟨hbuilt, ?_⟩
    intro name hname
    rw [List.mem_singleton.mp hname]
    simpa using hfree
  have hrefused := refused_of_loadDefinition List.not_mem_nil hopen he h
  rw [List.nil_append] at hrefused
  exact ⟨source, hsource, hrefused⟩

end Text

/--
After a text was read, every section in the table fits without the union flag, and so fits as it is
unless it is a union that is too long with its tag.  A text is only refused for the length of a
section where the fields of that section, up to the line of the error and without the union flag, do
not fit; the section is one of the text or of a file that is read for it.
-/
theorem fits_of_loadText (root : Path) (calls : List Call) (tree : FileTree) (path : Path)
    (text : String) :
    let before := tableAfter root calls
    let result := ((loadText tree root path text).run before).1
    let after := ((loadText tree root path text).run before).2
    (∀ id, result = .ok id →
      (∃ source, SourceFile.ofPath root path = .ok source ∧ after.find? source.name = some id) ∧
        ∀ d ∈ after.definitions, ∀ s ∈ d.sections,
          let lengths := s.fields.map fun f => f.type.greatest after
          ({ s with isUnion := false } : Section).greatest? after = some (total lengths) ∧
            (s.greatest? after = none ↔ s.isUnion = true ∧
              max32 < maximum lengths + unionTagWidth s.fields.length)) ∧
      ∀ e, result = .error e → e.isOverflow = true →
        ∃ source, SourceFile.ofPath root path = .ok source ∧
          Refused tree root [source.name] source text before e := by
  intro before result after
  have hbuilt : before.Built := built_tableAfter root calls
  have hafter : after.Built := by
    have hcall := built_tableAfter root (calls ++ [.one tree path text])
    rwa [tableAfter_concat] at hcall
  refine ⟨?_, ?_⟩
  · intro id hresult
    refine ⟨loadText_eq_ok (Prod.ext hresult rfl), fun d hd s hs => ?_⟩
    have hvalid := hafter.valid hd s hs
    exact ⟨hvalid.greatest?_sequence, hvalid.greatest?_eq_none_iff⟩
  · intro e hresult he
    exact loadText_eq_overflow hbuilt he (Prod.ext hresult rfl)

/--
Two fields that only fit as a union are refused, and one that only fits without the tag of a union
is accepted.
-/
theorem union_counted_as_sequence :
    let root := Path.ofText "r"
    let path := Path.ofText "r/A.uavcan"
    let load := fun text => (loadText {} root path text).run {}
    let word : Primitive := ⟨.unsigned, 32, .saturated, by decide⟩
    let long : FieldType := .array (.primitive word) .static 134217727
    let fields : List Field := [⟨"a", long⟩, ⟨"b", long⟩]
    let accepted := load "@union\nbool[4294967295] a\n"
    (load "@union\nuint32[134217727] a\nuint32[134217727] b\n").1 =
        .error (.line "r/A.uavcan" 3 (.fieldOverflow "b")) ∧
      ({ fields, isUnion := true } : Section).greatest? {} = some 4294967265 ∧
      accepted.1 = .ok 0 ∧
      accepted.2.definitions.map (fun d => d.request.greatest? accepted.2) = [none] := by
  decide +kernel

end Load

end BusSchema
