import BusSchema.Proofs.Schema.KeptLiterals
import BusSchema.Proofs.Schema.Segments
import BusSchema.Proofs.Schema.Spelling

/-!
# Texts of one attribute

A field of an accepted definition whose type holds no compound type, or a constant, is spelled in
schema notation as a line that can be read on its own, whatever has been read before it.  The
definition that is read from it has the same attribute and nothing else
(`Load.run_loadText_spelling`).
-/

namespace BusSchema

/-! ## Texts of one line -/

namespace Text

/-- What may stand behind the last line of a text. -/
def lineEndings : List String := ["", "\n", "\r\n"]

variable {line : List Char}

theorem lines_ended (hfeed : '\n' ∉ line) : lines (line ++ ['\n']) = [dropReturn line] := by
  have hpieces : pieces '\n' (line ++ ['\n']) = [line, []] := by
    rw [pieces_eq_splitOn, List.splitOn, List.splitOnP_append_cons_of_forall_mem _ '\n' rfl]
    · rfl
    · intro c hc
      simpa using fun h : c = '\n' => hfeed (h ▸ hc)
  unfold lines
  rw [hpieces]
  rfl

theorem lines_unended (hne : line ≠ []) (hfeed : '\n' ∉ line) : lines line = [line] := by
  have hpieces : pieces '\n' line = [line] := by
    rw [pieces_eq_splitOn]
    refine List.splitOnP_eq_singleton fun c hc => ?_
    simpa using fun h : c = '\n' => hfeed (h ▸ hc)
  unfold lines
  rw [hpieces]
  simp [hne]

/-- A text of one line, at whose end is no blank. -/
theorem lines_append_ending (hfeed : '\n' ∉ line)
    (hlast : ∃ c ∈ line.getLast?, isBlank c = false) {ending : String}
    (hending : ending ∈ lineEndings) : lines (line ++ ending.toList) = [line] := by
  obtain ⟨last, hmem, hblank⟩ := hlast
  have hreturn : dropReturn line = line := by
    refine if_neg fun h => ?_
    obtain rfl := Option.mem_unique hmem h
    exact absurd hblank (by decide)
  simp only [lineEndings, List.mem_cons, List.not_mem_nil, or_false] at hending
  rcases hending with rfl | rfl | rfl
  · have hne : line ≠ [] := List.ne_nil_of_mem (List.mem_of_mem_getLast? hmem)
    exact (congrArg lines (List.append_nil line)).trans (lines_unended hne hfeed)
  · exact (lines_ended hfeed).trans (congrArg (fun line => [line]) hreturn)
  · have hdropped : dropReturn (line ++ ['\r']) = line := by
      rw [dropReturn, if_pos List.getLast?_concat, List.dropLast_concat]
    have hfeeds : '\n' ∉ line ++ ['\r'] := by
      rw [List.mem_append, not_or]
      exact ⟨hfeed, by decide⟩
    have hsplit : line ++ "\r\n".toList = (line ++ ['\r']) ++ ['\n'] := by simp
    rw [hsplit, lines_ended hfeeds, hdropped]

theorem trim_eq_self (hfirst : ∃ c ∈ line.head?, isBlank c = false)
    (hlast : ∃ c ∈ line.getLast?, isBlank c = false) : trim line = line := by
  have hstart : line.dropWhile isBlank = line :=
    Statement.dropWhile_of_head? (forall_mem_of_exists_mem hfirst)
  have hend : line.reverse.dropWhile isBlank = line.reverse := by
    refine Statement.dropWhile_of_head? ?_
    rw [List.head?_reverse]
    exact forall_mem_of_exists_mem hlast
  unfold trim
  rw [hstart, hend, List.reverse_reverse]

end Text

theorem Statement.Tidy.stripComment_eq {line : List Char} {attr : AttributeExpr}
    (h : Tidy line attr) : stripComment line = line := by
  have hbefore : line.takeWhile (· ≠ '#') = line :=
    List.takeWhile_eq_self_iff.mpr fun c hc => by simpa using (h.stays c hc).1
  unfold stripComment
  rw [hbefore, Text.trim_eq_self h.first h.last]

theorem Statement.Tidy.lines_eq {line : String} {attr : AttributeExpr}
    (h : Tidy line.toList attr) {ending : String} (hending : ending ∈ Text.lineEndings) :
    Text.lines (line ++ ending).toList = [line.toList] := by
  rw [String.toList_append]
  exact Text.lines_append_ending (fun hfeed => (h.stays _ hfeed).2 rfl) h.last hending

/-! ## Types as written -/

theorem lt_twoPow32_of_le {n : Nat} (h : n ≤ max32) : n < twoPow 32 := lt_limit32_iff.mpr h

theorem readNumber_toString {n : Nat} (h : n ≤ max32) : readNumber (toString n) = .ok n := by
  unfold readNumber
  rw [Numeral.read32?_toString (lt_twoPow32_of_le h)]

theorem ArrayMode.elaborate_bound (mode : ArrayMode) {size : Nat} (hpos : 1 ≤ size)
    (hmax : size ≤ max32) : (mode.bound size).elaborate = .ok (mode, size) := by
  have hne : size ≠ 0 := Nat.one_le_iff_ne_zero.mp hpos
  unfold BoundExpr.elaborate
  cases mode with
  | static =>
    dsimp only [bound]
    rw [readNumber_toString hmax]
    exact if_neg hne
  | dynamic =>
    dsimp only [bound]
    rw [readNumber_toString hmax]
    exact if_neg hne

theorem Padding.width_le_max32 (p : Padding) : p.width ≤ max32 :=
  Nat.le_trans p.allowed.2 (by decide)

theorem Padding.readPadding_width (p : Padding) :
    FieldType.readPadding (toString p.width) = .ok (.padding p) := by
  have hmade : Padding.ofWidth p.width = .ok p := dif_pos p.allowed
  unfold FieldType.readPadding
  rw [readNumber_toString p.width_le_max32, ok_bind, hmade]
  rfl

namespace Primitive

theorem width_le_max32 (p : Primitive) : p.width ≤ max32 :=
  Nat.le_trans p.width_le (by decide)

theorem readNumeric_width (p : Primitive) :
    FieldType.readNumeric p.kind (toString p.width) p.cast = .ok (.primitive p) := by
  have hmade : ofWidth p.kind p.width p.cast = .ok p := dif_pos p.allowed
  unfold FieldType.readNumeric
  rw [Numeral.read32?_toString (lt_twoPow32_of_le p.width_le_max32)]
  dsimp only
  rw [hmade]
  rfl

variable (resolve : Load.Resolver) (located : LineFault → SchemaError) (table : TypeTable)

theorem run_elaborateScalar_expr (p : Primitive) :
    (Load.elaborateScalar resolve located p.cast p.expr).run table =
      (.ok (.primitive p), table) := by
  have hnumeric := p.readNumeric_width
  obtain ⟨kind, width, cast, hallowed⟩ := p
  have hread : (Load.elaborateScalar resolve located cast (.numeric kind (toString width))).run
      table = (.ok (.primitive ⟨kind, width, cast, hallowed⟩), table) := by
    unfold Load.elaborateScalar
    dsimp only at hnumeric ⊢
    rw [hnumeric]
    rfl
  cases kind with
  | bool =>
    obtain rfl : width = 1 := hallowed
    rfl
  | void => exact hallowed.elim
  | unsigned => exact hread
  | signed => exact hread
  | float => exact hread

/-- A type as written is the type, if an array of it has elements and can be measured. -/
theorem run_elaborateType_repeatedExpr (p : Primitive) {times : Option (ArrayMode × Nat)}
    (hvalid : (p.repeated times).Valid table) :
    (Load.elaborateType resolve located p.cast (p.repeatedExpr times)).run table =
      (.ok (p.repeated times), table) := by
  rcases times with - | ⟨mode, size⟩
  · exact p.run_elaborateScalar_expr resolve located table
  obtain ⟨-, -, hpos, hmax, hmeasured⟩ := hvalid
  obtain ⟨length, hlength⟩ := Option.isSome_iff_exists.mp hmeasured
  have hmake : FieldType.makeArray table (.primitive p) (mode.bound size) =
      .ok (.array (.primitive p) mode size) := by
    unfold FieldType.makeArray
    rw [mode.elaborate_bound hpos hmax]
    simp only [FieldType.isPadding, Bool.false_eq_true, if_false, ok_bind, hlength]
    rfl
  unfold Load.elaborateType repeatedExpr
  dsimp only
  rw [Load.run_bind, p.run_elaborateScalar_expr resolve located table]
  dsimp only
  rw [Load.run_get_bind, hmake]
  rfl

/-- The table does not matter to a type that holds no compound type. -/
theorem valid_repeated {p : Primitive} {times : Option (ArrayMode × Nat)} {other : TypeTable}
    (h : (p.repeated times).Valid other) (table : TypeTable) : (p.repeated times).Valid table := by
  rcases times with - | ⟨mode, size⟩
  · trivial
  · exact h

/-- The type is as long as a 32-bit number tells. -/
theorem greatest?_repeated {p : Primitive} {times : Option (ArrayMode × Nat)} {table : TypeTable}
    (h : (p.repeated times).Valid table) :
    ∃ length, (p.repeated times).greatest? table = some length ∧ length ≤ max32 := by
  rcases times with - | ⟨mode, size⟩
  · exact ⟨p.width, rfl, p.width_le_max32⟩
  · obtain ⟨length, hlength⟩ := Option.isSome_iff_exists.mp h.2.2.2.2
    obtain ⟨each, -, hfits, rfl⟩ := FieldType.array_greatest?_eq_some hlength
    exact ⟨_, hlength, hfits⟩

end Primitive

/-! ## Texts of one attribute -/

/-- The type is padding, a primitive type or an array of a primitive type. -/
def FieldType.IsPlain : FieldType → Prop
  | padding _ => True
  | primitive _ => True
  | compound _ => False
  | array element _ _ => ∃ p, element = primitive p

theorem FieldType.IsPlain.cases {type : FieldType} (h : type.IsPlain) :
    (∃ p, type = .padding p) ∨ ∃ (p : Primitive) (times : Option (ArrayMode × Nat)),
      type = p.repeated times := by
  cases type with
  | padding p => exact Or.inl ⟨p, rfl⟩
  | primitive p => exact Or.inr ⟨p, none, rfl⟩
  | compound id => exact h.elim
  | array element mode size =>
    obtain ⟨p, rfl⟩ := h
    exact Or.inr ⟨p, some (mode, size), rfl⟩

theorem FieldType.IsPlain.references {type : FieldType} (h : type.IsPlain) :
    type.references = [] := by
  rcases h.cases with ⟨p, rfl⟩ | ⟨p, times, rfl⟩
  · rfl
  · cases times <;> rfl

/-- The fields and constants. -/
def Section.attributes (s : Section) : List Attribute :=
  s.fields.map .field ++ s.constants.map .constant

namespace Attribute

/-- The attribute in schema notation. -/
def spelling (table : TypeTable) : Attribute → String
  | field f => f.spelling table
  | constant c => c.spelling

/-- The attribute is a constant, or its type holds no compound type. -/
def IsPlain : Attribute → Prop
  | field f => f.type.IsPlain
  | constant _ => True

/-- The section that has the attribute and nothing else. -/
def alone : Attribute → Section
  | field f => { fields := [f] }
  | constant c => { constants := [c] }

/-- A definition with nothing but a plain attribute refers to no other one. -/
theorem IsPlain.references {attr : Attribute} (h : attr.IsPlain) (name : String)
    (version : Version) (subjectId : Nat) :
    Definition.references ⟨name, version, subjectId, attr.alone, none⟩ = [] := by
  cases attr with
  | field f =>
    have hreferences : f.type.references = [] := FieldType.IsPlain.references h
    simp [Definition.references, Definition.sections, alone, hreferences]
  | constant c => rfl

/-- The line says the attribute, with any definitions around it. -/
def SaidBy (attr : Attribute) (line : List Char) : Prop :=
  ∃ (written : AttributeExpr) (type : FieldType), Statement.Tidy line written ∧
    make type written.name written.literal = .ok attr ∧
    ∀ resolve located table,
      (Load.elaborateType resolve located written.cast written.type).run table = (.ok type, table)

/-- A field is not compound and has a greatest length, with any definitions around it. -/
def Fits : Attribute → Prop
  | field f => f.type.isCompound = false ∧
      ∀ table, ∃ length, f.type.greatest? table = some length ∧ length ≤ max32
  | constant _ => True

/-- The first attribute of a draft is the only one of the definition that is finished then. -/
theorem push_alone {attr : Attribute} (h : attr.Fits) (table : TypeTable) :
    ∃ draft, DefinitionDraft.push table {} attr = .ok draft ∧ ∀ name header,
      draft.finish name header =
        ⟨name, header.version, header.subjectId, attr.alone, none⟩ := by
  obtain ⟨names, hnames⟩ : ∃ names,
      DefinitionDraft.noteName {} attr.name = .ok { names } := by
    unfold DefinitionDraft.noteName
    split
    · exact ⟨[], rfl⟩
    · exact ⟨[attr.name], rfl⟩
  unfold DefinitionDraft.push
  rw [hnames, ok_bind]
  cases attr with
  | constant c => exact ⟨_, rfl, fun _ _ => rfl⟩
  | field f =>
    obtain ⟨hcompound, hlength⟩ := h
    obtain ⟨length, hlength, hmax⟩ := hlength table
    have hpush : SectionDraft.pushField table {} f =
        .ok { fields := [f], offset := 0 + length } := by
      have hfits : fit32? (0 + length) = some (0 + length) :=
        fit32?_eq_some_iff.mpr ⟨rfl, by omega⟩
      unfold SectionDraft.pushField SectionDraft.append
      rw [hcompound, hlength]
      simp only [Bool.false_eq_true, if_false, Option.bind_some, hfits]
      rfl
    have hcurrent : DefinitionDraft.current { names } = {} := rfl
    dsimp only
    rw [hcurrent, hpush, ok_bind]
    exact ⟨_, rfl, fun _ _ => rfl⟩

end Attribute

namespace Attribute

theorem saidBy_padding (p : Padding) (table : TypeTable) :
    (field (Field.ofPadding p)).SaidBy ((Field.ofPadding p).spelling table).toList := by
  refine ⟨_, .padding p, p.tidy_spelling, rfl, fun resolve located table => ?_⟩
  unfold Load.elaborateType Load.elaborateScalar
  dsimp only
  rw [p.readPadding_width]
  rfl

theorem saidBy_repeated {name : String} (hname : Statement.IsName name) {p : Primitive}
    {times : Option (ArrayMode × Nat)} {table : TypeTable}
    (hvalid : (p.repeated times).Valid table) :
    (field ⟨name, p.repeated times⟩).SaidBy
      (Field.spelling table ⟨name, p.repeated times⟩).toList := by
  refine ⟨_, p.repeated times, Field.tidy_spelling hname p times table, ?_, ?_⟩
  · unfold make
    dsimp only
    rw [p.isPadding_repeated times]
    rfl
  · intro resolve located other
    have hother := Primitive.valid_repeated hvalid other
    exact p.run_elaborateType_repeatedExpr resolve located other hother

theorem saidBy_constant {c : Constant} (h : c.Kept) :
    (constant c).SaidBy c.spelling.toList := by
  refine ⟨_, .primitive c.type, Constant.tidy_spelling h.named h.literal_ne_nil h.bare, ?_,
    fun resolve located table => c.type.run_elaborateScalar_expr resolve located table⟩
  have hmake : make (.primitive c.type) (some c.name) (some c.literal) =
      (Constant.make c.name (.primitive c.type) c.literal).map .constant := rfl
  rw [hmake, h.remade]
  rfl

/-- Attributes of valid sections are said by the lines that spell them, but for compound types. -/
theorem saidBy_spelling {table : TypeTable} {s : Section} (hs : s.Valid table)
    (hkept : ∀ c ∈ s.constants, c.Kept) {attr : Attribute} (hattr : attr ∈ s.attributes)
    (hplain : attr.IsPlain) : attr.SaidBy (attr.spelling table).toList ∧ attr.Fits := by
  rcases List.mem_append.mp hattr with hfield | hconstant
  · obtain ⟨f, hf, rfl⟩ := List.mem_map.mp hfield
    have htype := hs.types f hf
    have hnamed := hs.named f hf
    obtain ⟨name, type⟩ := f
    rcases FieldType.IsPlain.cases hplain with ⟨p, rfl⟩ | ⟨p, times, rfl⟩
    · obtain rfl : name = "" := hnamed
      exact ⟨saidBy_padding p table, rfl, fun table => ⟨p.width, rfl, p.width_le_max32⟩⟩
    · have hname : Statement.IsName name := by
        cases times <;> exact hnamed
      have hcompound : (p.repeated times).isCompound = false := by cases times <;> rfl
      exact ⟨saidBy_repeated hname htype, hcompound, fun other =>
        Primitive.greatest?_repeated (Primitive.valid_repeated htype other)⟩
  · obtain ⟨c, hc, rfl⟩ := List.mem_map.mp hconstant
    exact ⟨saidBy_constant (hkept c hc), trivial⟩

end Attribute

namespace Load

variable {attr : Attribute} {line ending : String}

/-- A text of one line that says an attribute is read as the definition of that attribute alone. -/
theorem run_elaborateText_of_saidBy (hsaid : attr.SaidBy line.toList) (hfits : attr.Fits)
    (hending : ending ∈ Text.lineEndings) (resolve : Resolver) (source : SourceFile)
    (table : TypeTable) :
    (elaborateText resolve source (line ++ ending)).run table =
      (.ok ⟨source.name, source.header.version, source.header.subjectId, attr.alone, none⟩,
        table) := by
  obtain ⟨written, type, htidy, hmake, htype⟩ := hsaid
  obtain ⟨draft, hpush, hfinish⟩ := Attribute.push_alone hfits table
  have hread : Statement.read? (stripComment line.toList) = some (.member written) := by
    rw [htidy.stripComment_eq, htidy.read]
  have hline : (elaborateLine resolve (.line source.path.text 1) {} line.toList).run table =
      (.ok draft, table) := by
    rw [elaborateLine_of_read? hread]
    unfold elaborateStatement
    dsimp only
    rw [run_bind, htype]
    dsimp only
    rw [hmake, run_bind]
    have hmade : (ofLine (.line source.path.text 1) (.ok attr)).run table = (.ok attr, table) := rfl
    rw [hmade]
    dsimp only
    rw [run_get_bind, hpush]
    rfl
  have hlines : (elaborateLines resolve source.path.text 1 [line.toList] {}).run table =
      (.ok draft, table) := by
    unfold elaborateLines
    rw [run_bind, hline]
    rfl
  unfold elaborateText
  rw [htidy.lines_eq hending, run_bind, hlines, ← hfinish]
  rfl

/--
After any session, an attribute of a definition that is a constant, padding, or a field of a
primitive type or of an array of these is spelled as a line that can be read as the only one of a
text, over any definitions, from any tree and in any file whose name is not taken.  The definition
that is added has this attribute and nothing else.
-/
theorem run_loadText_spelling (root : Path) (calls : List Call) {d : Definition}
    (hd : d ∈ (tableAfter root calls).definitions) {s : Section} (hs : s ∈ d.sections)
    (hattr : attr ∈ s.attributes) (hplain : attr.IsPlain) (tree : FileTree) {base path : Path}
    {source : SourceFile} (hsource : SourceFile.ofPath base path = .ok source) {table : TypeTable}
    (hnew : table.contains source.name = false) (hending : ending ∈ Text.lineEndings) :
    let sole : Definition :=
      ⟨source.name, source.header.version, source.header.subjectId, attr.alone, none⟩
    ∃ haccepts : table.Accepts sole,
      (loadText tree base path (attr.spelling (tableAfter root calls) ++ ending)).run table =
        (.ok table.size, (table.push sole haccepts).2) := by
  intro sole
  have haccepts : table.Accepts sole := by
    refine ⟨hnew, fun id hid => ?_⟩
    rw [hplain.references] at hid
    cases hid
  refine ⟨haccepts, ?_⟩
  have hvalid := (built_tableAfter root calls).valid hd s hs
  have hkept := kept_of_tableAfter root calls hd s hs
  obtain ⟨hsaid, hfits⟩ := Attribute.saidBy_spelling hvalid hkept hattr hplain
  unfold loadText
  rw [hsource]
  dsimp only
  rw [run_loadNew, hnew, loadDefinition_eq, if_neg Bool.false_ne_true, run_bind,
    run_elaborateText_of_saidBy hsaid hfits hending]
  dsimp only
  rw [run_insert, dif_pos haccepts]

/-- A bound that was exclusive, a name that is a keyword, and a literal that had blanks in it. -/
theorem run_loadText_spelling_normal :
    let root := Path.ofText "r"
    let text := "truncated uint8[<9] saturated\nint8 X = - 0x 7F # least but one\n"
    let session := tableAfter root [.one {} (Path.ofText "r/A.uavcan") text]
    let f : Field := ⟨"saturated",
      .array (.primitive ⟨.unsigned, 8, .truncated, by decide⟩) .dynamic 8⟩
    let c : Constant := ⟨"X", ⟨.signed, 8, .saturated, by decide⟩, .signed (-127), "-0x7F"⟩
    let read := fun text => (loadText {} root (Path.ofText "r/B.uavcan") text).run {}
    let alone := fun s : Section => (⟨"B", {}, 0, s, none⟩ : Definition)
    session.definitions = [⟨"A", {}, 0, { fields := [f], constants := [c] }, none⟩] ∧
      (∃ haccepts, read "truncated uint8[<=8] saturated\n" =
        (.ok 0, (TypeTable.empty.push (alone { fields := [f] }) haccepts).2)) ∧
      ∃ haccepts, read "saturated int8 X = -0x7F" =
        (.ok 0, (TypeTable.empty.push (alone { constants := [c] }) haccepts).2) := by
  intro root text session f c read alone
  have hdefinitions : session.definitions =
      [⟨"A", {}, 0, { fields := [f], constants := [c] }, none⟩] := by decide +kernel
  have hsource : SourceFile.ofPath root (Path.ofText "r/B.uavcan") =
      .ok ⟨Path.ofText "r/B.uavcan", ⟨"B", 0, {}⟩, ""⟩ := by decide +kernel
  have hfield : (Attribute.field f).spelling session ++ "\n" =
      "truncated uint8[<=8] saturated\n" := by decide +kernel
  have hconstant : (Attribute.constant c).spelling session ++ "" = "saturated int8 X = -0x7F" := by
    decide +kernel
  let s : Section := { fields := [f], constants := [c] }
  let d : Definition := ⟨"A", {}, 0, s, none⟩
  have hd : d ∈ session.definitions := hdefinitions ▸ List.mem_singleton_self d
  have hs : s ∈ d.sections := List.mem_cons_self
  have hf : .field f ∈ s.attributes := List.mem_cons_self
  have hc : .constant c ∈ s.attributes := List.mem_cons_of_mem _ List.mem_cons_self
  have hplain : (Attribute.field f).IsPlain := ⟨_, rfl⟩
  have hnew : TypeTable.empty.contains "B" = false := rfl
  have hended : "\n" ∈ Text.lineEndings := by decide
  have hunended : "" ∈ Text.lineEndings := by decide
  refine ⟨hdefinitions, ?_, ?_⟩
  · have hread := run_loadText_spelling root _ hd hs hf hplain {} hsource hnew hended
    rw [hfield] at hread
    exact hread
  · have hread := run_loadText_spelling root _ hd hs hc trivial {} hsource hnew hunended
    rw [hconstant] at hread
    exact hread

end Load

end BusSchema
