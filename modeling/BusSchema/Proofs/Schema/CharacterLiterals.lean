import BusSchema.Proofs.Schema.Edits
import BusSchema.Proofs.Schema.SoleAttribute

/-!
# Character literals

A constant may be given as a character between single quotes.  The line is cut at a comment, and the
literal loses its blanks, before the quotes are looked at.  So the literals of all characters are
read as their code points, except those of blanks, which are read as a pair of quotes without a
character, and of the character that starts a comment, of which only a quote is left
(`Load.run_elaborateLine_characterLine`).
-/

namespace BusSchema

/-- The type of the constants that characters are read for here. -/
def Primitive.uint32 : Primitive := ⟨.unsigned, 32, .saturated, by decide⟩

namespace Literal

/-- A text between single quotes. -/
def quoted (text : List Char) : String :=
  String.ofList (Text.singleQuote :: (text ++ [Text.singleQuote]))

/-- The letters that may stand behind a backslash, with the characters that they stand for. -/
def escapes : List (Char × Char) :=
  [('n', '\n'), ('t', '\t'), ('r', '\r'), ('0', '\x00'), (Text.backslash, Text.backslash),
    (Text.singleQuote, Text.singleQuote)]

theorem toList_quoted (text : List Char) :
    (quoted text).toList = Text.singleQuote :: (text ++ [Text.singleQuote]) :=
  String.toList_ofList

theorem exists_first_quoted (text : List Char) :
    ∃ c ∈ (quoted text).toList.head?, Text.isBlank c = false := by
  refine ⟨Text.singleQuote, ?_, by decide⟩
  rw [toList_quoted]
  rfl

theorem exists_last_quoted (text : List Char) :
    ∃ c ∈ (quoted text).toList.getLast?, Text.isBlank c = false := by
  refine ⟨Text.singleQuote, ?_, by decide⟩
  rw [toList_quoted, ← List.cons_append]
  exact List.getLast?_concat

/-- What holds of the quote and of a text holds of all that stands in the literal. -/
theorem forall_mem_quoted {p : Char → Prop} (hquote : p Text.singleQuote) {text : List Char}
    (htext : ∀ c ∈ text, p c) : ∀ c ∈ (quoted text).toList, p c := by
  rw [toList_quoted, List.forall_mem_cons, List.forall_mem_append, List.forall_mem_singleton]
  exact ⟨hquote, htext, hquote⟩

/-- A quoted text is read as the character that stands in it. -/
theorem read_quoted (text : List Char) :
    read .unsigned (quoted text) =
      match readQuoted? text with
      | some c => .ok (.unsigned c.toNat)
      | none => .error (.character (quoted text)) := by
  have hends : Text.singleQuote = Text.singleQuote ∧
      (text ++ [Text.singleQuote]).getLast? = some Text.singleQuote :=
    ⟨rfl, List.getLast?_concat⟩
  have hcharacter : readCharacter (quoted text).toList =
      match readQuoted? text with
      | some c => .ok c.toNat
      | none => .error (.character (quoted text)) := by
    rw [toList_quoted, readCharacter, if_pos hends, List.dropLast_concat]
    rfl
  have hfirst : (quoted text).toList.head? = some Text.singleQuote := by
    rw [toList_quoted]
    rfl
  unfold read
  dsimp only
  rw [if_pos hfirst, hcharacter]
  cases readQuoted? text with
  | some c => rfl
  | none => rfl

theorem readQuoted?_escape {escape : Char × Char} (h : escape ∈ escapes) :
    readQuoted? [Text.backslash, escape.1] = some escape.2 := by
  have hall : escapes.all (fun escape =>
      decide (readQuoted? [Text.backslash, escape.1] = some escape.2)) = true := by decide
  exact of_decide_eq_true (List.all_eq_true.mp hall escape h)

theorem not_isBlank_of_mem_escapes {escape : Char × Char} (h : escape ∈ escapes) :
    Text.isBlank escape.1 = false ∧ escape.1 ≠ '#' := by
  have hall : escapes.all (fun escape =>
      decide (Text.isBlank escape.1 = false ∧ escape.1 ≠ '#')) = true := by decide
  exact of_decide_eq_true (List.all_eq_true.mp hall escape h)

end Literal

namespace Constant

variable {name : String} {text : List Char} {c : Char}

theorem literalOf_quoted (text : List Char) :
    literalOf (Literal.quoted text) = Literal.quoted (Text.dropBlanks text) := by
  have hquote : Text.isBlank Text.singleQuote = false := by decide
  simp [literalOf, Literal.quoted, Text.dropBlanks, hquote]

/-- Every character has a code point of 32 bits. -/
theorem accepts_toNat (c : Char) : Primitive.uint32.Accepts c.toNat := by
  apply Primitive.accepts_of_contains
  have hc : c.toNat < 2 ^ 32 := c.val.toNat_lt
  constructor
  · exact Int.natCast_nonneg _
  · show (c.toNat : Int) < 2 ^ 32
    exact_mod_cast hc

/-- A character between quotes is read as its code point, blanks around it being dropped. -/
theorem make_quoted (name : String) (hread : Literal.readQuoted? (Text.dropBlanks text) = some c) :
    make name (.primitive Primitive.uint32) (Literal.quoted text) =
      .ok ⟨name, Primitive.uint32, .unsigned c.toNat, Literal.quoted (Text.dropBlanks text)⟩ := by
  have hvalue : Literal.read Primitive.uint32.kind (literalOf (Literal.quoted text)) =
      .ok (.unsigned c.toNat) := by
    rw [literalOf_quoted]
    exact (Literal.read_quoted _).trans (by rw [hread])
  rw [make_of_accepts hvalue rfl (accepts_toNat c), literalOf_quoted]

/-- Quotes that hold no character are refused. -/
theorem make_quoted_eq_error (name : String)
    (hread : Literal.readQuoted? (Text.dropBlanks text) = none) :
    make name (.primitive Primitive.uint32) (Literal.quoted text) =
      .error (.literal (.character (Literal.quoted (Text.dropBlanks text)))) := by
  have hvalue : Literal.read .unsigned (literalOf (Literal.quoted text)) =
      .error (.character (Literal.quoted (Text.dropBlanks text))) := by
    rw [literalOf_quoted, Literal.read_quoted, hread]
  unfold make
  dsimp only
  rw [← literalOf]
  exact congrArg (fun value => Except.mapError LineFault.literal value >>= _) hvalue

end Constant

/-! ## Lines of constants -/

/-- The line of a constant with a literal. -/
def Constant.line (name : String) (literal : List Char) : List Char :=
  Primitive.uint32.word.toList ++ ' ' :: (name.toList ++ ' ' :: '=' :: ' ' :: literal)

example : Constant.line "X" "5".toList = "uint32 X = 5".toList := by decide +kernel

namespace Statement

variable {name : String} {literal text : List Char}

theorem splitCast_of_head? {c : Char} (hc : c ∈ text.head?) (hsaturated : 's' ≠ c)
    (htruncated : 't' ≠ c) : splitCast text = (.saturated, text) := by
  unfold splitCast readCast?
  rw [readKeyword?_eq_none _ (c := 's') rfl hc hsaturated,
    readKeyword?_eq_none _ (c := 't') rfl hc htruncated]
  rfl

/-- A line without a cast mode says a saturated constant. -/
theorem read?_constantLine (hname : IsName name)
    (hliteral : ∃ c ∈ literal.head?, Text.isBlank c = false) :
    read? (Constant.line name literal) =
      some (.member ⟨.saturated, .scalar (.numeric .unsigned "32"), some name,
        some (String.ofList literal)⟩) := by
  have hfirst : 'u' ∈ (Constant.line name literal).head? := rfl
  have htype : readType? (Constant.line name literal) =
      some (.scalar (.numeric .unsigned "32"),
        ' ' :: (name.toList ++ ' ' :: '=' :: ' ' :: literal)) :=
    Primitive.uint32.readType?_repeatedWord none _
  have hskip : skip (Constant.line name literal) = Constant.line name literal :=
    dropWhile_of_head? (forall_mem_of_exists_mem ⟨'u', hfirst, rfl⟩)
  have hnamed : ∃ c ∈ (name.toList ++ ' ' :: '=' :: ' ' :: literal).head?, isSkipped c = false := by
    obtain ⟨c, hc, hstart⟩ := hname.1
    have hword := isWordChar_of_isWordStart hstart
    exact ⟨c, List.mem_head?_append_of_mem_head? hc, isSkipped_of_isWordChar hword⟩
  have hwritten : ∃ c ∈ (String.ofList literal).toList.head?, isSkipped c = false := by
    obtain ⟨c, hc, hblank⟩ := hliteral
    exact ⟨c, String.toList_ofList.symm ▸ hc, isSkipped_of_not_isBlank hblank⟩
  have hconstant := readNamed?_literal hname hwritten .saturated (.scalar (.numeric .unsigned "32"))
  rw [String.toList_ofList] at hconstant
  rw [read?_of_head? hfirst (by decide), readAttribute?,
    splitCast_of_head? hfirst (by decide) (by decide)]
  simp only
  rw [hskip, htype]
  simp only [Option.bind_eq_bind, Option.bind_some]
  rw [skip_space hnamed]
  obtain ⟨first, hstart, -⟩ := hnamed
  split
  · next hempty =>
    rw [hempty] at hstart
    cases hstart
  · rw [hconstant]
    rfl

end Statement

namespace Constant

variable {name : String} {literal : List Char}

/-- What holds of letters, digits, spaces and the equals sign holds of all in front of a literal. -/
theorem forall_mem_line (hname : Statement.IsName name) {p : Char → Prop}
    (hword : ∀ c, Statement.isWordChar c = true → p c) (hspace : p ' ') (hequals : p '=')
    (hliteral : ∀ c ∈ literal, p c) : ∀ c ∈ line name literal, p c := by
  have htype : ∀ c ∈ Primitive.uint32.word.toList, p c := fun c hc =>
    hword c (Primitive.uint32.isWordChar_of_mem_word c hc)
  simp only [line, List.forall_mem_append, List.forall_mem_cons]
  exact ⟨htype, hspace, fun c hc => hword c (hname.2 c hc), hspace, hequals, hspace, hliteral⟩

theorem exists_last_line (name : String)
    (hlast : ∃ c ∈ literal.getLast?, Text.isBlank c = false) :
    ∃ c ∈ (line name literal).getLast?, Text.isBlank c = false := by
  obtain ⟨c, hc, hblank⟩ := hlast
  have hsplit : line name literal =
      (Primitive.uint32.word.toList ++ ' ' :: (name.toList ++ [' ', '=', ' '])) ++ literal := by
    simp [line]
  rw [hsplit]
  exact ⟨c, List.mem_getLast?_append_of_mem_getLast? hc, hblank⟩

/-- What stands from a comment mark on is dropped from the line, and nothing else. -/
theorem stripComment_line (hname : Statement.IsName name) (hmark : '#' ∉ literal)
    (hlast : ∃ c ∈ literal.getLast?, Text.isBlank c = false)
    {comment : List Char} (hcomment : IsComment comment) :
    stripComment (line name (literal ++ comment)) = line name literal := by
  have hsplit : line name (literal ++ comment) = line name literal ++ comment := by
    simp [line, List.append_assoc]
  have hbefore : ∀ c ∈ line name literal, c ≠ '#' :=
    forall_mem_line hname (fun c hc => (Statement.staysInLine_of_isWordChar hc).1) (by decide)
      (by decide) fun c hc h => hmark (h ▸ hc)
  have htake : (line name literal).takeWhile (· ≠ '#') = line name literal :=
    List.takeWhile_eq_self_iff.mpr fun c hc => decide_eq_true (hbefore c hc)
  rw [hsplit, stripComment_append_comment hcomment, stripComment, htake,
    Text.trim_eq_self ⟨'u', rfl, by decide⟩ (exists_last_line name hlast)]

end Constant

namespace Load

variable {resolve : Resolver} {located : LineFault → SchemaError} {draft : DefinitionDraft}
  {table : TypeTable} {name : String} {literal written : List Char}

/-- The line of a constant is read by making the constant from what is left of its literal. -/
theorem run_elaborateLine_constantLine (hname : Statement.IsName name)
    (hfirst : ∃ c ∈ literal.head?, Text.isBlank c = false)
    (hwritten : stripComment written = Constant.line name literal) :
    (elaborateLine resolve located draft written).run table =
      match Constant.make name (.primitive Primitive.uint32) (String.ofList literal) with
      | .ok c => (ofLine located (draft.push table (.constant c))).run table
      | .error fault => (.error (located fault), table) := by
  have hread := Statement.read?_constantLine hname hfirst
  rw [← hwritten] at hread
  exact run_elaborateLine_of_constant hread Primitive.uint32.readNumeric_width

/--
The line of a constant with a text between quotes is accepted, and the value of the constant is the
code point of a character.
-/
def ReadsAs (resolve : Resolver) (located : LineFault → SchemaError) (draft : DefinitionDraft)
    (table : TypeTable) (name : String) (text : List Char) (c : Char) : Prop :=
  ∃ next, (elaborateLine resolve located draft
      (Constant.line name (Literal.quoted text).toList)).run table = (.ok next, table) ∧
    next.current.constants = draft.current.constants ++
      [⟨name, Primitive.uint32, .unsigned c.toNat, Literal.quoted text⟩]

/-- The line of a constant is cut at no place inside quotes that hold no comment mark. -/
theorem run_elaborateLine_quoted (hname : Statement.IsName name) {text : List Char}
    (hmark : '#' ∉ text) :
    (elaborateLine resolve located draft
        (Constant.line name (Literal.quoted text).toList)).run table =
      match Constant.make name (.primitive Primitive.uint32) (Literal.quoted text) with
      | .ok c => (ofLine located (draft.push table (.constant c))).run table
      | .error fault => (.error (located fault), table) := by
  have hquotes : '#' ∉ (Literal.quoted text).toList := fun hmem =>
    Literal.forall_mem_quoted (p := (· ≠ '#')) (by decide) (fun c hc h => hmark (h ▸ hc)) _ hmem rfl
  have hlast := Literal.exists_last_quoted text
  have hstrip := Constant.stripComment_line hname hquotes hlast isComment_nil
  rw [List.append_nil] at hstrip
  rw [run_elaborateLine_constantLine hname (Literal.exists_first_quoted text) hstrip,
    String.ofList_toList]

theorem readsAs_of_readQuoted? (hname : Statement.IsName name) (hnew : name ∉ draft.names)
    {text : List Char} {c : Char} (hread : Literal.readQuoted? text = some c)
    (htext : ∀ d ∈ text, Text.isBlank d = false ∧ d ≠ '#') :
    ReadsAs resolve located draft table name text c := by
  have hblanks : Text.dropBlanks text = text := by
    apply List.filter_eq_self.mpr
    intro d hd
    rw [(htext d hd).1]
    rfl
  have hmake := Constant.make_quoted name (hblanks.symm ▸ hread)
  rw [hblanks] at hmake
  obtain ⟨next, hnext, hconstants⟩ := draft.push_constant table
    ⟨name, Primitive.uint32, .unsigned c.toNat, Literal.quoted text⟩ hnew
  refine ⟨next, ?_, hconstants⟩
  rw [run_elaborateLine_quoted hname fun hmark => (htext '#' hmark).2 rfl, hmake]
  dsimp only
  rw [hnext]
  rfl

/--
A literal of any character between quotes denotes the code point of the character.  In the line of a
constant it does so, as all escapes do, unless the character is a blank or starts a comment.  The
literal of a blank is refused as a pair of quotes, that of the other as a single quote, although the
line is one line of a text.
-/
theorem run_elaborateLine_characterLine (hname : Statement.IsName name)
    (hnew : name ∉ draft.names) :
    let written := fun text => Constant.line name (Literal.quoted text).toList
    let result := fun text => (elaborateLine resolve located draft (written text)).run table
    (∀ c, Literal.read .unsigned (Literal.quoted [c]) = .ok (.unsigned c.toNat)) ∧
      (∀ c, Text.isBlank c = false → c ≠ '#' →
        ReadsAs resolve located draft table name [c] c) ∧
      (∀ escape ∈ Literal.escapes,
        ReadsAs resolve located draft table name [Text.backslash, escape.1] escape.2) ∧
      (∀ c, Text.isBlank c = true →
        result [c] = (.error (located (.literal (.character (Literal.quoted [])))), table)) ∧
      result ['#'] =
        (.error (located (.literal (.character (String.ofList [Text.singleQuote])))), table) ∧
      ∀ c, c ≠ '\n' → ∀ ending ∈ Text.lineEndings,
        Text.lines (written [c] ++ ending.toList) = [written [c]] := by
  intro written result
  refine ⟨fun c => Literal.read_quoted [c], fun c hblank hmark => ?_, fun escape hescape => ?_,
    fun c hblank => ?_, ?_, fun c hfeed ending hending => ?_⟩
  · apply readsAs_of_readQuoted? hname hnew rfl
    intro d hd
    obtain rfl := List.mem_singleton.mp hd
    exact ⟨hblank, hmark⟩
  · apply readsAs_of_readQuoted? hname hnew (Literal.readQuoted?_escape hescape)
    have hletter := Literal.not_isBlank_of_mem_escapes hescape
    have hbackslash : Text.isBlank Text.backslash = false ∧ Text.backslash ≠ '#' := by decide
    exact List.forall_mem_cons.mpr ⟨hbackslash, List.forall_mem_singleton.mpr hletter⟩
  · have hblanks : Text.dropBlanks [c] = [] := List.filter_cons_of_neg (by simp [hblank])
    have hmark : '#' ∉ [c] := by
      rw [List.mem_singleton]
      rintro rfl
      exact absurd hblank (by decide)
    have hread : Literal.readQuoted? (Text.dropBlanks [c]) = none := by
      rw [hblanks]
      rfl
    have hmake := Constant.make_quoted_eq_error name hread
    rw [hblanks] at hmake
    refine (run_elaborateLine_quoted hname hmark).trans ?_
    rw [hmake]
  · have hwritten : written ['#'] =
        Constant.line name ([Text.singleQuote] ++ ['#', Text.singleQuote]) :=
      congrArg (Constant.line name) (Literal.toList_quoted ['#'])
    have hstrip : stripComment (written ['#']) = Constant.line name [Text.singleQuote] := by
      rw [hwritten]
      apply Constant.stripComment_line hname (by decide) ⟨_, rfl, by decide⟩
      exact isComment_mark _
    exact run_elaborateLine_constantLine hname ⟨_, rfl, by decide⟩ hstrip
  · have hquoted : ∀ d ∈ (Literal.quoted [c]).toList, d ≠ '\n' :=
      Literal.forall_mem_quoted (by decide) fun d hd => List.mem_singleton.mp hd ▸ hfeed
    have hline : ∀ d ∈ written [c], d ≠ '\n' :=
      Constant.forall_mem_line hname (fun d hd => (Statement.staysInLine_of_isWordChar hd).2)
        (by decide) (by decide) hquoted
    have hlast := Constant.exists_last_line name (Literal.exists_last_quoted [c])
    exact Text.lines_append_ending (fun hmem => hline _ hmem rfl) hlast hending

/-- A letter behind a constant of another name, in a text that ends there. -/
theorem readsAs_letter :
    let draft : DefinitionDraft := { names := ["FIRST"] }
    (Statement.IsName "SECOND" ∧ "SECOND" ∉ draft.names) ∧
      ReadsAs (fun _ _ => pure 0) (.line "r/A.uavcan" 2) draft {} "SECOND" ['é'] 'é' := by
  intro draft
  have hname : Statement.IsName "SECOND" :=
    ⟨⟨'S', by decide, by decide⟩, List.all_eq_true.mp (by decide)⟩
  have hnew : "SECOND" ∉ draft.names := by decide
  obtain ⟨-, hcharacters, -⟩ := @run_elaborateLine_characterLine (fun _ _ => pure 0)
    (.line "r/A.uavcan" 2) draft {} "SECOND" hname hnew
  exact ⟨⟨hname, hnew⟩, hcharacters 'é' (by decide) (by decide)⟩

/-- A space and the character that starts a comment, between quotes, are refused in a file. -/
theorem loadText_spaceLiteral_refused :
    let path := Path.ofText "dsdl/A.uavcan"
    let load := fun text => ((loadText {} (Path.ofText "dsdl") path text).run {}).1
    load "uint32 X = ' '" =
        .error (.line "dsdl/A.uavcan" 1 (.literal (.character (Literal.quoted [])))) ∧
      load "uint32 X = '#'" =
        .error (.line "dsdl/A.uavcan" 1
          (.literal (.character (String.ofList [Text.singleQuote])))) := by
  intro path load
  exact ⟨by decide +kernel, by decide +kernel⟩

end Load

end BusSchema
