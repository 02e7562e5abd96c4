import BusSchema.Proofs.Schema.Constants
import BusSchema.Proofs.Schema.Declared

/-!
# The literals of accepted constants

An accepted constant keeps the literal that it was made from, without blanks.  The literal stood at
the end of a line without a comment, so it holds no `#`, and it makes the same constant again
(`Load.kept_of_tableAfter`).
-/

namespace BusSchema

namespace Statement

variable {text rest line : List Char}

/-! ## What a line ends with -/

theorem isSuffix_of_readKeyword? {keyword : String} (h : readKeyword? keyword text = some rest) :
    rest <:+ text := by
  rw [dropBeginning?_eq_some_iff.mp h]
  exact List.suffix_append _ _

theorem isSuffix_of_readRun? {inClass : Char → Bool} {run : String}
    (h : readRun? inClass text = some (run, rest)) : rest <:+ text := by
  unfold readRun? at h
  split at h
  · cases h
  · cases h
    exact List.dropWhile_suffix _

theorem isSuffix_of_readName? {name : String} (h : readName? text = some (name, rest)) :
    rest <:+ text := by
  unfold readName? at h
  split at h
  · split at h
    · exact isSuffix_of_readRun? h
    · cases h
  · cases h

theorem isSuffix_spanReference (text : List Char) : (spanReference text).2 <:+ text := by
  induction text with
  | nil => exact List.suffix_refl []
  | cons c text ih =>
    unfold spanReference
    dsimp only
    split
    · exact ih.trans (List.suffix_cons c text)
    · exact List.suffix_refl _

/-- What follows a keyword and a number. -/
theorem isSuffix_of_digits {keyword : String} {type : String → ScalarExpr}
    {read : ScalarExpr × List Char}
    (h : (do
      let afterKeyword ← readKeyword? keyword text
      let (digits, rest) ← readDigits? afterKeyword
      if endsWord rest then some (type digits, rest) else none) = some read) :
    read.2 <:+ text := by
  obtain ⟨afterKeyword, hkeyword, hrest⟩ := Option.bind_eq_some_iff.mp h
  obtain ⟨⟨digits, after⟩, hdigits, hlast⟩ := Option.bind_eq_some_iff.mp hrest
  dsimp only at hlast
  split at hlast
  · cases hlast
    exact (isSuffix_of_readRun? hdigits).trans (isSuffix_of_readKeyword? hkeyword)
  · cases hlast

theorem isSuffix_of_readBoolean? {read : ScalarExpr × List Char}
    (h : readBoolean? text = some read) : read.2 <:+ text := by
  obtain ⟨after, hkeyword, hlast⟩ := Option.bind_eq_some_iff.mp h
  split at hlast
  · cases hlast
    exact isSuffix_of_readKeyword? hkeyword
  · cases hlast

theorem isSuffix_of_readReference? {read : ScalarExpr × List Char}
    (h : readReference? text = some read) : read.2 <:+ text := by
  unfold readReference? at h
  split at h
  · cases h
  · cases h
    exact isSuffix_spanReference text

theorem isSuffix_of_readScalar? {read : ScalarExpr × List Char}
    (h : readScalar? text = some read) : read.2 <:+ text := by
  unfold readScalar? at h
  simp only [Option.orElse_eq_orElse, Option.orElse_eq_or, Option.or_eq_some_iff] at h
  rcases h with h | ⟨-, h | ⟨-, h | ⟨-, h | ⟨-, h | ⟨-, h⟩⟩⟩⟩⟩
  · exact isSuffix_of_digits h
  · exact isSuffix_of_readBoolean? h
  · exact isSuffix_of_digits h
  · exact isSuffix_of_digits h
  · exact isSuffix_of_digits h
  · exact isSuffix_of_readReference? h

theorem isSuffix_of_readDigitsAfter? {sign digits : String}
    (h : readDigitsAfter? sign text = some (digits, rest)) : rest <:+ text := by
  obtain ⟨after, hsign, hdigits⟩ := Option.bind_eq_some_iff.mp h
  have hskip : skipSpaces after <:+ after := List.dropWhile_suffix _
  exact ((isSuffix_of_readRun? hdigits).trans hskip).trans (isSuffix_of_readKeyword? hsign)

theorem isSuffix_of_readBound? {read : BoundExpr × List Char} (h : readBound? text = some read) :
    read.2 <:+ text := by
  unfold readBound? at h
  simp only [Option.orElse_eq_orElse, Option.orElse_eq_or, Option.or_eq_some_iff] at h
  rcases h with h | ⟨-, h | ⟨-, h⟩⟩
  · obtain ⟨⟨digits, after⟩, hdigits, rfl⟩ := Option.map_eq_some_iff.mp h
    exact isSuffix_of_readDigitsAfter? hdigits
  · obtain ⟨⟨digits, after⟩, hdigits, rfl⟩ := Option.map_eq_some_iff.mp h
    exact isSuffix_of_readDigitsAfter? hdigits
  · obtain ⟨⟨digits, after⟩, hdigits, rfl⟩ := Option.map_eq_some_iff.mp h
    exact isSuffix_of_readRun? hdigits

theorem isSuffix_of_readBrackets? {read : BoundExpr × List Char}
    (h : readBrackets? text = some read) : read.2 <:+ text := by
  obtain ⟨inside, hopen, hrest⟩ := Option.bind_eq_some_iff.mp h
  obtain ⟨⟨bound, after⟩, hbound, hlast⟩ := Option.bind_eq_some_iff.mp hrest
  obtain ⟨behind, hclose, hread⟩ := Option.bind_eq_some_iff.mp hlast
  cases hread
  have hbefore : skipSpaces inside <:+ inside := List.dropWhile_suffix _
  have hbehind : skipSpaces after <:+ after := List.dropWhile_suffix _
  exact ((isSuffix_of_readKeyword? hclose).trans hbehind).trans
    (((isSuffix_of_readBound? hbound).trans hbefore).trans (isSuffix_of_readKeyword? hopen))

theorem isSuffix_of_readType? {read : TypeExpr × List Char} (h : readType? text = some read) :
    read.2 <:+ text := by
  obtain ⟨⟨element, after⟩, helement, hrest⟩ := Option.bind_eq_some_iff.mp h
  have hafter : after <:+ text := isSuffix_of_readScalar? helement
  dsimp only at hrest
  split at hrest
  · next hbrackets =>
    cases hrest
    exact (isSuffix_of_readBrackets? hbrackets).trans hafter
  · cases hrest
    exact hafter

theorem isSuffix_of_readCast? {mode : CastMode} {read : CastMode × List Char}
    (h : readCast? mode text = some read) : read.2 <:+ text := by
  unfold readCast? at h
  split at h
  · next hkeyword =>
    split at h
    · cases h
      exact isSuffix_of_readKeyword? hkeyword
    · cases h
  · cases h

theorem isSuffix_splitCast (text : List Char) : (splitCast text).2 <:+ text := by
  unfold splitCast
  cases hread : (readCast? .saturated text <|> readCast? .truncated text) with
  | none => exact List.suffix_refl text
  | some read =>
    simp only [Option.orElse_eq_orElse, Option.orElse_eq_or, Option.or_eq_some_iff] at hread
    rcases hread with hread | ⟨-, hread⟩
    · exact isSuffix_of_readCast? hread
    · exact isSuffix_of_readCast? hread

theorem isSuffix_of_readNamed? {cast : CastMode} {type : TypeExpr} {attr : AttributeExpr}
    (h : readNamed? cast type text = some attr) :
    ∀ literal ∈ attr.literal, literal.toList <:+ text := by
  obtain ⟨⟨name, after⟩, hname, hrest⟩ := Option.bind_eq_some_iff.mp h
  dsimp only at hrest
  split at hrest
  · cases hrest
    exact nofun
  · next rest hequals =>
    have hrestText : '=' :: rest <:+ text :=
      hequals ▸ (List.dropWhile_suffix _).trans (isSuffix_of_readName? hname)
    have hskip : skip rest <:+ text :=
      ((List.dropWhile_suffix _).trans (List.suffix_cons '=' rest)).trans hrestText
    split at hrest
    · cases hrest
    · cases hrest
      intro literal hliteral
      cases hliteral
      rw [String.toList_ofList]
      exact hskip
  · cases hrest

theorem isSuffix_of_readAttribute? {attr : AttributeExpr} (h : readAttribute? text = some attr) :
    ∀ literal ∈ attr.literal, literal.toList <:+ text := by
  obtain ⟨⟨type, after⟩, htype, hrest⟩ := Option.bind_eq_some_iff.mp h
  have hafter : skip after <:+ text :=
    (List.dropWhile_suffix _).trans ((isSuffix_of_readType? htype).trans
      ((List.dropWhile_suffix _).trans (isSuffix_splitCast text)))
  dsimp only at hrest
  split at hrest
  · cases hrest
    exact nofun
  · intro literal hliteral
    exact (isSuffix_of_readNamed? hrest literal hliteral).trans hafter

/-- A line ends with the literal of its constant. -/
theorem isSuffix_of_read? {attr : AttributeExpr} (h : read? line = some (.member attr)) :
    ∀ literal ∈ attr.literal, literal.toList <:+ line := by
  have hskip : skip line <:+ line := List.dropWhile_suffix _
  unfold read? at h
  dsimp only at h
  split at h
  · split at h <;> cases h
  · simp only [Option.orElse_eq_orElse, Option.orElse_eq_or, Option.or_eq_some_iff] at h
    rcases h with hdirective | ⟨-, hmember⟩
    · obtain ⟨afterSign, -, hrest⟩ := Option.bind_eq_some_iff.mp hdirective
      obtain ⟨⟨name, afterName⟩, -, hlast⟩ := Option.bind_eq_some_iff.mp hrest
      cases hlast
    · obtain ⟨read, hread, hattr⟩ := Option.map_eq_some_iff.mp hmember
      cases hattr
      intro literal hliteral
      exact (isSuffix_of_readAttribute? hread literal hliteral).trans hskip

end Statement

/-! ## Constants -/

theorem mem_of_mem_trim {c : Char} {text : List Char} (h : c ∈ Text.trim text) : c ∈ text := by
  have hend : c ∈ ((text.dropWhile Text.isBlank).reverse.dropWhile Text.isBlank) :=
    List.mem_reverse.mp h
  have hstart : c ∈ (text.dropWhile Text.isBlank).reverse :=
    (List.dropWhile_suffix _).mem hend
  exact (List.dropWhile_suffix _).mem (List.mem_reverse.mp hstart)

theorem ne_mark_of_mem_stripComment {c : Char} {line : List Char} (h : c ∈ stripComment line) :
    c ≠ '#' := by
  have hbefore := List.mem_takeWhile_imp (mem_of_mem_trim h)
  simpa using hbefore

namespace Constant

theorem isBlank_of_mem_literalOf {written : String} {c : Char}
    (h : c ∈ (literalOf written).toList) : Text.isBlank c = false ∧ c ∈ written.toList := by
  rw [literalOf, String.toList_ofList] at h
  obtain ⟨hmem, hblank⟩ := List.mem_filter.mp h
  exact ⟨by simpa using hblank, hmem⟩

theorem literalOf_literalOf (written : String) :
    literalOf (literalOf written) = literalOf written := by
  rw [literalOf, literalOf, String.toList_ofList, Text.dropBlanks, Text.dropBlanks,
    List.filter_filter]
  simp only [Bool.and_self]

theorem make_eq_ok {name written : String} {type : FieldType} {c : Constant}
    (h : make name type written = .ok c) :
    c.name = name ∧ type = .primitive c.type ∧ c.literal = literalOf written := by
  unfold make at h
  split at h
  · obtain ⟨value, -, hrest⟩ := bind_eq_ok_iff.mp h
    dsimp only at hrest
    split at hrest
    · cases hrest
    · cases hrest
      exact ⟨rfl, rfl, rfl⟩
  · cases h

/-- A constant is made of a literal as it is made of the literal without blanks. -/
theorem make_literalOf (name : String) (type : FieldType) (written : String) :
    make name type (literalOf written) = make name type written := by
  have hsame : String.ofList (Text.dropBlanks (literalOf written).toList) =
      String.ofList (Text.dropBlanks written.toList) := literalOf_literalOf written
  unfold make
  rw [hsame]

/-- The constant has a name, and the literal that it keeps makes it again. -/
structure Kept (c : Constant) : Prop where
  named : Statement.IsName c.name
  bare : ∀ ch ∈ c.literal.toList, Text.isBlank ch = false ∧ ch ≠ '#'
  remade : make c.name (.primitive c.type) c.literal = .ok c

theorem Kept.literal_ne_nil {c : Constant} (h : c.Kept) : c.literal.toList ≠ [] := by
  intro hempty
  have hliteral : c.literal = "" := String.toList_eq_nil_iff.mp hempty
  have hmake := h.remade
  rw [hliteral] at hmake
  obtain ⟨value, hvalue, -⟩ := bind_eq_ok_iff.mp hmake
  have hread := mapError_eq_ok_iff.mp hvalue
  cases hkind : c.type.kind <;> rw [hkind] at hread <;> cases hread

end Constant

theorem Attribute.make_eq_constant {type : FieldType} {name literal : Option String}
    {c : Constant} (h : make type name literal = .ok (.constant c)) :
    ∃ word written, name = some word ∧ literal = some written ∧
      Constant.make word type written = .ok c := by
  unfold make at h
  cases name with
  | none =>
    dsimp only at h
    split at h <;> cases h
  | some word =>
    dsimp only at h
    split at h
    · cases h
    cases literal with
    | none => cases h
    | some written =>
      obtain ⟨made, hmade, hsame⟩ := map_eq_ok_iff.mp h
      cases hsame
      exact ⟨word, written, rfl, rfl, hmade⟩

/-- The constant that a line stands for is kept. -/
theorem Load.kept_of_attributeOf? {resolve : Resolver} {path : String} {table : TypeTable}
    {line : List Char × Nat} {c : Constant}
    (h : attributeOf? resolve path table line = some (.constant c)) : c.Kept := by
  unfold attributeOf? at h
  split at h
  · next attr hread =>
    split at h
    · next type _ _ =>
      obtain ⟨word, written, hword, hwritten, hmake⟩ :=
        Attribute.make_eq_constant (toOption_eq_some_iff.mp h)
      obtain ⟨hname, htype, hliteral⟩ := Constant.make_eq_ok hmake
      refine ⟨?_, ?_, ?_⟩
      · rw [hname]
        exact Statement.isName_of_read? hread word hword
      · intro ch hch
        rw [hliteral] at hch
        obtain ⟨hblank, hmem⟩ := Constant.isBlank_of_mem_literalOf hch
        have hsuffix := Statement.isSuffix_of_read? hread written hwritten
        exact ⟨hblank, ne_mark_of_mem_stripComment (hsuffix.mem hmem)⟩
      · rw [hliteral, Constant.make_literalOf, hname, ← htype]
        exact hmake
    · cases h
  · cases h

/-! ## Drafts -/

theorem SectionDraft.constants_of_pushField {table : TypeTable} {draft next : SectionDraft}
    {f : Field} (h : draft.pushField table f = .ok next) : next.constants = draft.constants := by
  have halign : ∀ {draft next : SectionDraft}, draft.align = .ok next →
      next.constants = draft.constants := by
    intro draft next h
    rcases align_eq_ok h with rfl | ⟨p, -, rfl⟩
    · rfl
    · rfl
  have happend : ∀ {draft next : SectionDraft}, draft.append table f = .ok next →
      next.constants = draft.constants := by
    intro draft next h
    obtain ⟨length, -, -, rfl⟩ := append_eq_ok h
    rfl
  unfold pushField at h
  split at h
  · obtain ⟨aligned, hfirst, hrest⟩ := bind_eq_ok_iff.mp h
    obtain ⟨appended, hmiddle, hlast⟩ := bind_eq_ok_iff.mp hrest
    rw [halign hlast, happend hmiddle, halign hfirst]
  · exact happend h

namespace DefinitionDraft

/-- All constants of both sections are kept. -/
structure Kept (draft : DefinitionDraft) : Prop where
  request : ∀ c ∈ draft.request.constants, c.Kept
  response : ∀ s ∈ draft.response, ∀ c ∈ s.constants, c.Kept

variable {table : TypeTable} {draft next : DefinitionDraft}

theorem kept_empty : Kept {} := ⟨nofun, nofun⟩

theorem Kept.current (h : draft.Kept) : ∀ c ∈ draft.current.constants, c.Kept := by
  unfold DefinitionDraft.current
  cases hresponse : draft.response with
  | none => exact h.request
  | some response => exact h.response response hresponse

theorem Kept.setCurrent (h : draft.Kept) {s : SectionDraft} (hs : ∀ c ∈ s.constants, c.Kept)
    (names : List String) : (({ draft with names } : DefinitionDraft).setCurrent s).Kept := by
  unfold DefinitionDraft.setCurrent
  cases hresponse : draft.response with
  | none => exact ⟨hs, nofun⟩
  | some response =>
    refine ⟨h.request, fun other hother => ?_⟩
    cases hother
    exact hs

theorem Kept.separate (h : draft.Kept) (hnext : draft.separate = .ok next) : next.Kept := by
  unfold DefinitionDraft.separate at hnext
  split at hnext
  · cases hnext
  · cases hnext
    refine ⟨h.request, fun s hs => ?_⟩
    cases hs
    exact nofun

theorem Kept.direct (h : draft.Kept) {name : String} {hasArgument : Bool}
    (hnext : draft.direct name hasArgument = .ok next) : next.Kept := by
  unfold DefinitionDraft.direct at hnext
  split at hnext
  · cases hnext
    have hunion : ∀ c ∈ ({ draft.current with isUnion := true } : SectionDraft).constants,
        c.Kept := h.current
    exact h.setCurrent hunion draft.names
  · split at hnext
    · cases hnext
      exact h
    · cases hnext

theorem Kept.push (h : draft.Kept) {attr : Attribute} (hattr : ∀ c, attr = .constant c → c.Kept)
    (hnext : draft.push table attr = .ok next) : next.Kept := by
  unfold DefinitionDraft.push at hnext
  obtain ⟨noted, hnoted, hrest⟩ := bind_eq_ok_iff.mp hnext
  obtain ⟨names, rfl, -⟩ := noteName_eq_ok hnoted
  cases attr with
  | constant c =>
    cases hrest
    refine h.setCurrent (fun other hother => ?_) names
    rcases List.mem_append.mp hother with hearlier | hlast
    · exact h.current other hearlier
    · rw [List.mem_singleton.mp hlast]
      exact hattr c rfl
  | field f =>
    obtain ⟨pushed, hpushed, hlast⟩ := bind_eq_ok_iff.mp hrest
    cases hlast
    refine h.setCurrent (fun other hother => ?_) names
    rw [SectionDraft.constants_of_pushField hpushed] at hother
    exact h.current other hother

end DefinitionDraft

/-! ## Definitions -/

/-- All constants of the definition are kept. -/
def Definition.Kept (d : Definition) : Prop := ∀ s ∈ d.sections, ∀ c ∈ s.constants, c.Kept

theorem DefinitionDraft.Kept.finish {draft : DefinitionDraft} (h : draft.Kept) (name : String)
    (header : FileName) : (draft.finish name header).Kept := by
  intro s hs
  rcases List.mem_cons.mp hs with rfl | hresponse
  · exact h.request
  · obtain ⟨response, hmem, rfl⟩ := Option.mem_map.mp (Option.mem_toList.mp hresponse)
    exact h.response response hmem

namespace Load

variable {resolve : Resolver} {path : String} {table after : TypeTable}

section Lines

variable (hresolve : Resolves (· = table) resolve)

include hresolve

theorem kept_of_elaborateLine {number : Nat} {line : List Char} {draft next : DefinitionDraft}
    (hdraft : draft.Kept)
    (h : (elaborateLine resolve (.line path number) draft line).run table = (.ok next, after)) :
    after = table ∧ next.Kept := by
  obtain ⟨hafter, hline⟩ := elaborateLine_eq_ok hresolve h
  refine ⟨hafter, ?_⟩
  split at hline
  · exact hline ▸ hdraft
  · exact hdraft.separate hline
  · exact hdraft.direct hline
  · obtain ⟨made, hmade, hpush⟩ := hline
    refine hdraft.push (fun c hc => ?_) hpush
    rw [hc] at hmade
    exact kept_of_attributeOf? hmade

theorem kept_of_elaborateLines {number : Nat} {lines : List (List Char)}
    {draft next : DefinitionDraft} (hdraft : draft.Kept)
    (h : (elaborateLines resolve path number lines draft).run table = (.ok next, after)) :
    next.Kept := by
  induction lines generalizing number draft with
  | nil =>
    cases h
    exact hdraft
  | cons line lines ih =>
    obtain ⟨middle, between, hline, hlines⟩ := run_bind_eq_ok h
    obtain ⟨rfl, hmiddle⟩ := kept_of_elaborateLine hresolve hdraft hline
    exact ih hmiddle hlines

end Lines

/-- In a session all constants are kept. -/
theorem kept_of_tableAfter (root : Path) (calls : List Call) {d : Definition}
    (hd : d ∈ (tableAfter root calls).definitions) : d.Kept := by
  have hinv : ∀ tree, ChainInvariant tree root (fun _ _ => True)
      (fun chain table => Open chain table ∧ table.Each fun d _ => d.Kept) := by
    intro tree
    refine chainInvariant_each (fun d _ => d.Kept) (fun _ _ _ _ => trivial) ?_
    intro source text d table _ _ hrun
    obtain ⟨draft, hlines, rfl⟩ := elaborateText_eq_ok hrun
    have hdraft := kept_of_elaborateLines (resolves_lookup tree root source table)
      DefinitionDraft.kept_empty hlines
    exact hdraft.finish source.name source.header
  have heach := (invariant_tableAfter hinv ⟨open_empty, TypeTable.each_empty _⟩ calls).2
  obtain ⟨i, hi⟩ := List.mem_iff_getElem?.mp hd
  exact heach i d hi

end Load

end BusSchema
