import BusSchema.Proofs.Schema.Valid

/-!
# The definition in a text

Every line of a file keeps the draft of its definition valid, so the definition in a text is valid
relative to the table that loading its references has left (`triple_elaborateText`).  Loading
therefore only builds tables, and never adds a name while the definition of that name is being read
(`chainInvariant_open`).
-/

namespace BusSchema

theorem total_append (a b : List Nat) : total (a ++ b) = total a + total b := by
  unfold total
  induction a with
  | nil => simp
  | cons first rest ih => simp only [List.cons_append, List.foldr_cons, ih, Nat.add_assoc]

/-! ## Sections -/

namespace SectionDraft

/-- The draft with a field of the given length. -/
def extend (draft : SectionDraft) (field : Field) (length : Nat) : SectionDraft :=
  { draft with fields := draft.fields ++ [field], offset := draft.offset + length }

/-- The section is valid, and its offset is the sum of its lengths. -/
structure Valid (table : TypeTable) (draft : SectionDraft) : Prop where
  toSection : draft.toSection.Valid table
  offset : draft.offset = total (draft.fields.map fun f => f.type.greatest table)

/-- Alignment adds nothing or one field of padding. -/
theorem align_eq_ok {draft next : SectionDraft} (h : draft.align = .ok next) :
    next = draft ∨ ∃ p : Padding, draft.offset + p.width ≤ max32 ∧
      next = draft.extend (Field.ofPadding p) p.width := by
  unfold align at h
  split at h
  · cases h
    exact Or.inl rfl
  · next p _ =>
    split at h
    · cases h
    · next offset hoffset =>
      obtain ⟨rfl, hfits⟩ := fit32?_eq_some_iff.mp hoffset
      cases h
      exact Or.inr ⟨p, hfits, rfl⟩

theorem append_eq_ok {table : TypeTable} {draft next : SectionDraft} {field : Field}
    (h : draft.append table field = .ok next) :
    ∃ length, field.type.greatest? table = some length ∧ draft.offset + length ≤ max32 ∧
      next = draft.extend field length := by
  unfold append at h
  split at h
  · cases h
  · next offset hoffset =>
    obtain ⟨length, hlength, hsum⟩ := Option.bind_eq_some_iff.mp hoffset
    obtain ⟨rfl, hfits⟩ := fit32?_eq_some_iff.mp hsum
    cases h
    exact ⟨length, hlength, hfits, rfl⟩

end SectionDraft

namespace Section

theorem empty_notMem_names (s : Section) : "" ∉ s.names := by
  simp [names]

/-- Names that gain a new one, or none because it is empty, stay different from each other. -/
theorem nodup_of_gain {names later : List String} {name : String} (hnames : names.Nodup)
    (hnew : name ∉ names) (hlater : later.Perm ([name].filter (· ≠ "") ++ names)) :
    later.Nodup := by
  rw [hlater.nodup_iff]
  by_cases hname : name = ""
  · simpa [hname] using hnames
  · simpa [hname] using ⟨hnew, hnames⟩

theorem mem_of_gain {names later : List String} {name other : String}
    (hlater : later.Perm ([name].filter (· ≠ "") ++ names)) (hother : other ∈ later) :
    other = name ∧ name ≠ "" ∨ other ∈ names := by
  rw [hlater.mem_iff, List.mem_append, List.mem_filter, List.mem_singleton] at hother
  rcases hother with ⟨rfl, hname⟩ | hother
  · exact Or.inl ⟨rfl, by simpa using hname⟩
  · exact Or.inr hother

theorem names_field (s : Section) (f : Field) :
    ({ s with fields := s.fields ++ [f] } : Section).names.Perm
      ([f.name].filter (· ≠ "") ++ s.names) := by
  have hmiddle : ((s.fields ++ [f]).map Field.name ++ s.constants.map Constant.name).Perm
      ([f.name] ++ (s.fields.map Field.name ++ s.constants.map Constant.name)) := by
    simp [List.perm_middle]
  unfold names
  rw [← List.filter_append]
  exact hmiddle.filter _

theorem names_constant (s : Section) (c : Constant) :
    ({ s with constants := s.constants ++ [c] } : Section).names.Perm
      ([c.name].filter (· ≠ "") ++ s.names) := by
  have hlast : (s.fields.map Field.name ++ (s.constants ++ [c]).map Constant.name).Perm
      ([c.name] ++ (s.fields.map Field.name ++ s.constants.map Constant.name)) := by
    rw [List.map_append, ← List.append_assoc]
    exact List.perm_append_comm
  unfold names
  rw [← List.filter_append]
  exact hlast.filter _

end Section

namespace SectionDraft

variable {table : TypeTable} {draft next : SectionDraft} {field : Field}

theorem valid_empty (table : TypeTable) : Valid table {} := by
  refine ⟨⟨?_, ?_, List.nodup_nil, ?_, Nat.zero_le _⟩, rfl⟩
  all_goals
    intro f hf
    cases hf

theorem Valid.grows {a b : TypeTable} (hab : a.Grows b) (hdraft : draft.Valid a) :
    draft.Valid b := by
  refine ⟨hdraft.toSection.grows hab, ?_⟩
  rw [hdraft.offset]
  exact congrArg total (hdraft.toSection.lengths_grows hab).symm

theorem Valid.union (hdraft : draft.Valid table) : Valid table { draft with isUnion := true } :=
  ⟨⟨hdraft.toSection.types, hdraft.toSection.named, hdraft.toSection.distinct,
    hdraft.toSection.measured, hdraft.toSection.bounded⟩, hdraft.offset⟩

theorem Valid.constant (hdraft : draft.Valid table) {c : Constant}
    (hnew : c.name ∉ draft.toSection.names) :
    Valid table { draft with constants := draft.constants ++ [c] } :=
  ⟨⟨hdraft.toSection.types, hdraft.toSection.named,
    Section.nodup_of_gain hdraft.toSection.distinct hnew (Section.names_constant draft.toSection c),
    hdraft.toSection.measured, hdraft.toSection.bounded⟩, hdraft.offset⟩

/-- A field of a valid type under a new name leaves a draft valid if its length still fits. -/
theorem Valid.extend (hdraft : draft.Valid table) {length : Nat}
    (hlength : field.type.greatest? table = some length) (hfits : draft.offset + length ≤ max32)
    (htype : field.type.Valid table) (hnamed : field.Named)
    (hnew : field.name ∉ draft.toSection.names) : (draft.extend field length).Valid table := by
  have hgreatest : field.type.greatest table = length := by
    rw [FieldType.greatest, hlength]
    rfl
  have hoffset : draft.offset + length =
      total ((draft.fields ++ [field]).map fun f => f.type.greatest table) := by
    rw [List.map_append, List.map_singleton, total_append, hgreatest, hdraft.offset]
    rfl
  refine ⟨⟨?_, ?_, ?_, ?_, ?_⟩, hoffset⟩
  · intro f hf
    rcases List.mem_append.mp hf with hf | hf
    · exact hdraft.toSection.types f hf
    · rwa [List.mem_singleton.mp hf]
  · intro f hf
    rcases List.mem_append.mp hf with hf | hf
    · exact hdraft.toSection.named f hf
    · rwa [List.mem_singleton.mp hf]
  · exact Section.nodup_of_gain hdraft.toSection.distinct hnew
      (Section.names_field draft.toSection field)
  · intro f hf
    rcases List.mem_append.mp hf with hf | hf
    · exact hdraft.toSection.measured f hf
    · rw [List.mem_singleton.mp hf, hlength]
      rfl
  · exact hoffset ▸ hfits

theorem Valid.align (hdraft : draft.Valid table) (h : draft.align = .ok next) :
    next.Valid table ∧ ∀ name ∈ next.toSection.names, name ∈ draft.toSection.names := by
  rcases align_eq_ok h with rfl | ⟨p, hfits, rfl⟩
  · exact ⟨hdraft, fun name hname => hname⟩
  · refine ⟨hdraft.extend rfl hfits trivial rfl (Section.empty_notMem_names _), ?_⟩
    intro name hname
    rcases Section.mem_of_gain (Section.names_field draft.toSection _) hname with
      ⟨-, hempty⟩ | hname
    · exact absurd rfl hempty
    · exact hname

theorem Valid.append (hdraft : draft.Valid table) (htype : field.type.Valid table)
    (hnamed : field.Named) (hnew : field.name ∉ draft.toSection.names)
    (h : draft.append table field = .ok next) :
    next.Valid table ∧
      ∀ name ∈ next.toSection.names, name = field.name ∨ name ∈ draft.toSection.names := by
  obtain ⟨length, hlength, hfits, rfl⟩ := append_eq_ok h
  refine ⟨hdraft.extend hlength hfits htype hnamed hnew, ?_⟩
  intro name hname
  exact (Section.mem_of_gain (Section.names_field draft.toSection field) hname).imp_left And.left

/-- A field leaves a draft valid, with the padding around it, and adds no name but its own. -/
theorem Valid.pushField (hdraft : draft.Valid table) (htype : field.type.Valid table)
    (hnamed : field.Named) (hnew : field.name ∉ draft.toSection.names)
    (h : draft.pushField table field = .ok next) :
    next.Valid table ∧
      ∀ name ∈ next.toSection.names, name = field.name ∨ name ∈ draft.toSection.names := by
  unfold SectionDraft.pushField at h
  split at h
  · obtain ⟨aligned, hfirst, hrest⟩ := bind_eq_ok_iff.mp h
    obtain ⟨appended, hmiddle, hlast⟩ := bind_eq_ok_iff.mp hrest
    obtain ⟨haligned, hbefore⟩ := hdraft.align hfirst
    obtain ⟨happended, hadded⟩ :=
      haligned.append htype hnamed (fun hname => hnew (hbefore _ hname)) hmiddle
    obtain ⟨hnext, hbehind⟩ := happended.align hlast
    exact ⟨hnext, fun name hname => (hadded name (hbehind name hname)).imp_right (hbefore name)⟩
  · exact hdraft.append htype hnamed hnew h

end SectionDraft

/-! ## Definitions -/

/-- A field has a valid type and a fitting name. -/
def Attribute.Valid (table : TypeTable) : Attribute → Prop
  | field f => f.type.Valid table ∧ f.Named
  | constant _ => True

namespace DefinitionDraft

/-- Both sections are valid, and the names of the current one are noted. -/
structure Valid (table : TypeTable) (draft : DefinitionDraft) : Prop where
  request : draft.request.Valid table
  response : ∀ s ∈ draft.response, s.Valid table
  noted : ∀ name ∈ draft.current.toSection.names, name ∈ draft.names

variable {table : TypeTable} {draft next : DefinitionDraft}

theorem noteName_eq_ok {name : String} (h : draft.noteName name = .ok next) :
    ∃ names, next = { draft with names } ∧ (name ≠ "" → name ∉ draft.names ∧ name ∈ names) ∧
      ∀ other ∈ draft.names, other ∈ names := by
  unfold noteName at h
  split at h
  · next hempty =>
    cases h
    exact ⟨draft.names, rfl, fun hname => absurd hempty hname, fun _ hother => hother⟩
  · split at h
    · cases h
    · next hnew =>
      cases h
      exact ⟨name :: draft.names, rfl, fun _ => ⟨hnew, List.mem_cons_self⟩,
        fun _ hother => List.mem_cons_of_mem _ hother⟩

theorem valid_empty (table : TypeTable) : Valid table {} := by
  refine ⟨SectionDraft.valid_empty table, ?_, ?_⟩
  · intro s hs
    cases hs
  · intro name hname
    cases hname

theorem Valid.grows {a b : TypeTable} (hab : a.Grows b) (hdraft : draft.Valid a) :
    draft.Valid b :=
  ⟨hdraft.request.grows hab, fun s hs => (hdraft.response s hs).grows hab, hdraft.noted⟩

theorem Valid.current (hdraft : draft.Valid table) : draft.current.Valid table := by
  unfold DefinitionDraft.current
  cases hresponse : draft.response with
  | none => exact hdraft.request
  | some response => exact hdraft.response response hresponse

theorem current_setCurrent (draft : DefinitionDraft) (names : List String) (s : SectionDraft) :
    (({ draft with names } : DefinitionDraft).setCurrent s).current = s := by
  unfold setCurrent current
  cases draft.response <;> rfl

/-- The current section may be exchanged for a valid one whose names are noted. -/
theorem Valid.setCurrent (hdraft : draft.Valid table) {s : SectionDraft} (hs : s.Valid table)
    {names : List String} (hnoted : ∀ name ∈ s.toSection.names, name ∈ names) :
    (({ draft with names } : DefinitionDraft).setCurrent s).Valid table := by
  unfold DefinitionDraft.setCurrent
  cases hresponse : draft.response with
  | some response =>
    refine ⟨hdraft.request, ?_, hnoted⟩
    rintro other hother
    cases hother
    exact hs
  | none =>
    refine ⟨hs, ?_, ?_⟩
    · intro other hother
      cases hother
    · simpa [DefinitionDraft.current, hresponse] using hnoted

theorem Valid.separate (hdraft : draft.Valid table) (h : draft.separate = .ok next) :
    next.Valid table := by
  unfold DefinitionDraft.separate at h
  split at h
  · cases h
  · cases h
    refine ⟨hdraft.request, ?_, ?_⟩
    · rintro s hs
      cases hs
      exact SectionDraft.valid_empty table
    · intro name hname
      cases hname

theorem Valid.direct (hdraft : draft.Valid table) {name : String} {hasArgument : Bool}
    (h : draft.direct name hasArgument = .ok next) : next.Valid table := by
  unfold DefinitionDraft.direct at h
  split at h
  · cases h
    exact hdraft.setCurrent hdraft.current.union hdraft.noted
  · split at h
    · cases h
      exact hdraft
    · cases h

theorem Valid.push (hdraft : draft.Valid table) {attr : Attribute} (hattr : attr.Valid table)
    (h : draft.push table attr = .ok next) : next.Valid table := by
  unfold DefinitionDraft.push at h
  obtain ⟨noted, hnoted, hrest⟩ := bind_eq_ok_iff.mp h
  obtain ⟨names, rfl, hname, hkept⟩ := noteName_eq_ok hnoted
  have hnew : attr.name ∉ draft.current.toSection.names := by
    intro hmem
    by_cases hempty : attr.name = ""
    · rw [hempty] at hmem
      exact Section.empty_notMem_names _ hmem
    · exact (hname hempty).1 (hdraft.noted _ hmem)
  -- A name of the later section is one of the earlier section or the name of the attribute.
  have hlater : ∀ s : Section,
      (∀ other ∈ s.names, other = attr.name ∨ other ∈ draft.current.toSection.names) →
      ∀ other ∈ s.names, other ∈ names := by
    intro s hs other hother
    rcases hs other hother with rfl | hearlier
    · refine (hname ?_).2
      intro hempty
      rw [hempty] at hother
      exact Section.empty_notMem_names s hother
    · exact hkept other (hdraft.noted other hearlier)
  cases attr with
  | constant c =>
    cases hrest
    refine hdraft.setCurrent (hdraft.current.constant hnew) (hlater _ ?_)
    intro other hother
    exact (Section.mem_of_gain (Section.names_constant draft.current.toSection c) hother).imp_left
      And.left
  | field f =>
    obtain ⟨pushed, hpushed, hlast⟩ := bind_eq_ok_iff.mp hrest
    cases hlast
    obtain ⟨hvalid, hgain⟩ := hdraft.current.pushField hattr.1 hattr.2 hnew hpushed
    exact hdraft.setCurrent hvalid (hlater _ hgain)

theorem Valid.finish (hdraft : draft.Valid table) (name : String) (header : FileName) :
    (draft.finish name header).Valid table := by
  intro s hs
  rcases List.mem_cons.mp hs with rfl | hs
  · exact hdraft.request.toSection
  · obtain ⟨response, hresponse, rfl⟩ := Option.map_eq_some_iff.mp (Option.mem_toList.mp hs)
    exact (hdraft.response response hresponse).toSection

end DefinitionDraft

/-! ## Types and attributes as written -/

namespace FieldType

variable {table : TypeTable} {type : FieldType}

/-- The type was written without a bound. -/
def IsScalar (type : FieldType) : Prop := type.isPadding = true ∨ type.IsElement

theorem readPadding_eq_ok {digits : String} (h : readPadding digits = .ok type) :
    ∃ p, type = .padding p := by
  obtain ⟨width, -, hrest⟩ := bind_eq_ok_iff.mp h
  obtain ⟨p, -, rfl⟩ := map_eq_ok_iff.mp (mapError_eq_ok_iff.mp hrest)
  exact ⟨p, rfl⟩

theorem readNumeric_eq_ok {kind : ScalarKind} {digits : String} {cast : CastMode}
    (h : readNumeric kind digits cast = .ok type) : ∃ p, type = .primitive p := by
  unfold readNumeric at h
  split at h
  · cases h
  · obtain ⟨p, -, rfl⟩ := map_eq_ok_iff.mp (mapError_eq_ok_iff.mp h)
    exact ⟨p, rfl⟩

theorem valid_of_makeArray {element : FieldType} {bound : BoundExpr}
    (hscalar : element.IsScalar) (helement : element.Valid table)
    (h : makeArray table element bound = .ok type) : type.Valid table := by
  unfold makeArray at h
  split at h
  · cases h
  · next hpadding =>
    obtain ⟨⟨mode, size⟩, hbound, hrest⟩ := bind_eq_ok_iff.mp h
    obtain ⟨hpositive, hmax⟩ := BoundExpr.size_of_elaborate hbound
    simp only at hrest
    split at hrest
    · cases hrest
    · next length hlength =>
      cases hrest
      refine ⟨hscalar.resolve_left hpadding, helement, hpositive, hmax, ?_⟩
      rw [hlength]
      rfl

end FieldType

theorem Attribute.valid_of_make {table : TypeTable} {type : FieldType}
    {name literal : Option String} {attr : Attribute} (htype : type.Valid table)
    (hname : ∀ n ∈ name, Statement.IsName n)
    (h : Attribute.make type name literal = .ok attr) : attr.Valid table := by
  unfold Attribute.make at h
  split at h
  · split at h
    · cases h
      exact ⟨trivial, rfl⟩
    · cases h
  · next n =>
    split at h
    · cases h
    · next hpadding =>
      split at h
      · obtain ⟨c, -, rfl⟩ := map_eq_ok_iff.mp h
        trivial
      · cases h
        refine ⟨htype, ?_⟩
        rw [Field.Named, if_neg hpadding]
        exact hname n rfl

namespace Load

/-! ## Lines -/

section Elaboration

variable {inv : TypeTable → Prop} {resolve : Resolver} (hresolve : Resolves inv resolve)

include hresolve

theorem triple_elaborateScalar (located : LineFault → SchemaError) (cast : CastMode)
    (expr : ScalarExpr) :
    Triple inv (elaborateScalar resolve located cast expr)
      (fun type table => inv table ∧ type.Valid table ∧ type.IsScalar) inv := by
  cases expr with
  | padding digits =>
    refine triple_ofLine ?_ fun table h => h
    intro type htype table h
    obtain ⟨p, rfl⟩ := FieldType.readPadding_eq_ok htype
    exact ⟨h, trivial, Or.inl rfl⟩
  | boolean => exact triple_pure fun table h => ⟨h, trivial, Or.inr trivial⟩
  | numeric kind digits =>
    refine triple_ofLine ?_ fun table h => h
    intro type htype table h
    obtain ⟨p, rfl⟩ := FieldType.readNumeric_eq_ok htype
    exact ⟨h, trivial, Or.inr trivial⟩
  | named reference =>
    exact triple_bind (hresolve located reference) fun id =>
      triple_pure fun table h => ⟨h.1, h.2, Or.inr trivial⟩

theorem triple_elaborateType (located : LineFault → SchemaError) (cast : CastMode)
    (expr : TypeExpr) :
    Triple inv (elaborateType resolve located cast expr)
      (fun type table => inv table ∧ type.Valid table) inv := by
  cases expr with
  | scalar type =>
    exact triple_conseq (triple_elaborateScalar hresolve located cast type) (fun _ h => h)
      (fun _ _ h => ⟨h.1, h.2.1⟩) fun _ h => h
  | array element bound =>
    refine triple_bind (triple_elaborateScalar hresolve located cast element) fun type => ?_
    refine triple_bind triple_get fun read => ?_
    refine triple_ofLine ?_ fun table h => h.2.1
    rintro made hmade table ⟨rfl, hinv, hvalid, hscalar⟩
    exact ⟨hinv, FieldType.valid_of_makeArray hscalar hvalid hmade⟩

theorem triple_elaborateStatement (located : LineFault → SchemaError) (draft : DefinitionDraft)
    {line : List Char} {statement : Statement} (hread : Statement.read? line = some statement) :
    Triple (fun table => inv table ∧ draft.Valid table)
      (elaborateStatement resolve located draft statement)
      (fun next table => inv table ∧ next.Valid table) inv := by
  cases statement with
  | separator =>
    refine triple_ofLine ?_ fun table h => h.1
    intro next hnext table h
    exact ⟨h.1, h.2.separate hnext⟩
  | directive name hasArgument =>
    refine triple_ofLine ?_ fun table h => h.1
    intro next hnext table h
    exact ⟨h.1, h.2.direct hnext⟩
  | member attr =>
    -- Reading the type may load other definitions; the draft stays valid meanwhile.
    refine triple_bind (triple_frame (fun a b hab hdraft => hdraft.grows hab)
      (triple_elaborateType hresolve located attr.cast attr.type)) fun type => ?_
    have hmade : Triple (fun table => (inv table ∧ type.Valid table) ∧ draft.Valid table)
        (ofLine located (Attribute.make type attr.name attr.literal))
        (fun made table => (inv table ∧ draft.Valid table) ∧ made.Valid table) inv := by
      refine triple_ofLine ?_ fun table h => h.1.1
      intro made hmade table h
      exact ⟨⟨h.1.1, h.2⟩, Attribute.valid_of_make h.1.2 (Statement.isName_of_read? hread) hmade⟩
    refine triple_bind hmade fun made => ?_
    refine triple_bind triple_get fun read => ?_
    refine triple_ofLine ?_ fun table h => h.2.1.1
    rintro next hnext table ⟨rfl, ⟨hinv, hdraft⟩, hattr⟩
    exact ⟨hinv, hdraft.push hattr hnext⟩

theorem triple_elaborateLine (located : LineFault → SchemaError) (draft : DefinitionDraft)
    (line : List Char) :
    Triple (fun table => inv table ∧ draft.Valid table) (elaborateLine resolve located draft line)
      (fun next table => inv table ∧ next.Valid table) inv := by
  unfold elaborateLine
  split
  · exact triple_pure fun table h => h
  · split
    · exact triple_throw fun table h => h.1
    · next hread => exact triple_elaborateStatement hresolve _ draft hread

theorem triple_elaborateLines (path : String) (number : Nat) (lines : List (List Char))
    (draft : DefinitionDraft) :
    Triple (fun table => inv table ∧ draft.Valid table)
      (elaborateLines resolve path number lines draft)
      (fun next table => inv table ∧ next.Valid table) inv := by
  induction lines generalizing number draft with
  | nil => exact triple_pure fun table h => h
  | cons line rest ih =>
    exact triple_bind (triple_elaborateLine hresolve _ draft line) fun next => ih (number + 1) next

/-- The definition in the text of a file is valid and has the name that its path says. -/
theorem triple_elaborateText (source : SourceFile) (text : String) :
    Triple inv (elaborateText resolve source text)
      (fun d table => inv table ∧ d.Valid table ∧ d.name = source.name) inv := by
  have hlines := triple_elaborateLines hresolve source.path.text 1 (Text.lines text.toList) {}
  unfold elaborateText
  refine triple_bind (triple_conseq hlines
    (fun table h => ⟨h, DefinitionDraft.valid_empty table⟩) (fun _ _ h => h) fun _ h => h) ?_
  intro draft
  refine triple_pure ?_
  intro table h
  exact ⟨h.1, h.2.finish source.name source.header, rfl⟩

end Elaboration

/-! ## Tables -/

/-- The table is built, and nothing in it has a name that is being read. -/
def Open (chain : List String) (table : TypeTable) : Prop :=
  table.Built ∧ ∀ name ∈ chain, table.contains name = false

/-- Adding the definition that is being read takes its name off the chain. -/
theorem Open.push {front : List String} {name : String} {table : TypeTable} {d : Definition}
    (hopen : Open (front ++ [name]) table) (hnew : name ∉ front) (hvalid : d.Valid table)
    (hname : d.name = name) (haccepts : table.Accepts d) :
    Open front (table.push d haccepts).2 := by
  refine ⟨.push hopen.1 hvalid haccepts, ?_⟩
  intro other hother
  have hfree := hopen.2 other (List.mem_append_left _ hother)
  have hother : d.name ≠ other := by
    rintro rfl
    rw [hname] at hother
    exact hnew hother
  rw [TypeTable.contains_push, hfree]
  simpa using hother

theorem chainInvariant_open (tree : FileTree) (root : Path) :
    ChainInvariant tree root (fun _ _ => True) Open where
  located := fun _ _ _ _ => trivial
  opens := by
    intro chain name table _ hfree h
    refine ⟨h.1, ?_⟩
    intro other hother
    rcases List.mem_append.mp hother with hother | hother
    · exact h.2 other hother
    · rw [List.mem_singleton.mp hother]
      exact hfree
  closes := fun chain name table h =>
    ⟨h.1, fun other hother => h.2 other (List.mem_append_left _ hother)⟩
  reads := by
    intro front source text hnew _ chain hresolve
    refine triple_conseq (triple_elaborateText hresolve source text) (fun _ h => h) ?_ fun _ h => h
    rintro d table ⟨hopen, hvalid, hname⟩
    exact ⟨hopen, hopen.push hnew hvalid hname⟩

end Load

end BusSchema
