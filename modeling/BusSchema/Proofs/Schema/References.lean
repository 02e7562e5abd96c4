import BusSchema.Proofs.Schema.Faults
import BusSchema.Proofs.Schema.Origin

/-!
# References in files

A reference is written without empty segments (`regular_of_mem_referencesIn`), so the name that it
is read as has an empty segment only if the namespace of its file has one
(`SourceFile.regular_fullName`); no file that some reference leads to lies in such a namespace.

A file is only read from a table in which each of its references is found
(`Load.resolved_of_elaborateText`), as a definition by the name that the reference is read as or by
the name of the file that it leads to (`Load.ReadFrom.finds`).
-/

namespace BusSchema

/-! ## Words between points -/

namespace Text

theorem pieces_append_cons (separator : Char) (front rest : List Char) :
    pieces separator (front ++ separator :: rest) =
      pieces separator front ++ pieces separator rest := by
  induction front with
  | nil => simp [pieces]
  | cons c front ih =>
    rw [List.cons_append]
    by_cases hc : c = separator
    · rw [pieces, if_pos hc, ih, pieces, if_pos hc, List.cons_append]
    · obtain ⟨piece, others, hfront, hpieces⟩ := pieces_cons_of_ne hc front
      rw [pieces, if_neg hc, ih, hpieces, hfront]
      rfl

theorem split_append_point (front rest : String) :
    split '.' (front ++ "." ++ rest) = split '.' front ++ split '.' rest := by
  have hlist : (front ++ "." ++ rest).toList = front.toList ++ '.' :: rest.toList := by simp
  rw [split, hlist, pieces_append_cons, List.map_append]
  rfl

end Text

/-- A qualified name has no empty segment if and only if its two parts have none. -/
theorem regular_qualify_iff {nameSpace name : String} :
    Regular (qualify nameSpace name) ↔
      (nameSpace = "" ∨ Regular nameSpace) ∧ Regular name := by
  unfold qualify
  by_cases hempty : nameSpace = ""
  · simp [hempty]
  · simp [hempty, Regular, Text.split_append_point, List.mem_append, not_or]

namespace Statement

theorem ne_point_of_isWordChar {c : Char} (hc : isWordChar c = true) : c ≠ '.' := by
  rintro rfl
  exact absurd hc (by decide)

/-- Words that are joined by points have something between any two points, and before the first. -/
theorem pieces_of_spanReference (text : List Char) :
    (endsWord text = false → [] ∉ Text.pieces '.' (spanReference text).1) ∧
      [] ∉ (Text.pieces '.' (spanReference text).1).tail := by
  induction text with
  | nil => exact ⟨fun h => (nomatch h), List.not_mem_nil⟩
  | cons c rest ih =>
    rw [spanReference]
    cases hword : isWordChar c with
    | true =>
      have hpoint := ne_point_of_isWordChar hword
      obtain ⟨piece, others, hrest, hpieces⟩ :=
        Text.pieces_cons_of_ne hpoint (spanReference rest).1
      have hothers : [] ∉ others := by
        have htail := ih.2
        rwa [hrest] at htail
      simp only [Bool.true_or, if_true]
      rw [hpieces]
      refine ⟨fun _ => ?_, hothers⟩
      simpa using hothers
    | false =>
      refine ⟨fun hends => absurd hends (by simp [endsWord, hword]), ?_⟩
      cases hends : endsWord rest with
      | true => simp [Text.pieces]
      | false =>
        by_cases hpoint : c = '.'
        · simp only [hpoint, Bool.false_or, Bool.not_false, decide_true, Bool.and_self, if_true]
          rw [Text.pieces, if_pos rfl]
          exact ih.1 hends
        · simp [hpoint, Text.pieces]

theorem regular_of_readReference? {text rest : List Char} {type : ScalarExpr}
    (h : readReference? text = some (type, rest)) : ∀ written ∈ type.references, Regular written := by
  unfold readReference? at h
  split at h
  · cases h
  next hstarts =>
  cases h
  intro written hwritten
  rw [List.mem_singleton.mp hwritten, Regular, Text.split, String.toList_ofList, List.mem_map]
  rintro ⟨piece, hpiece, hempty⟩
  have hnil : piece = [] := by simpa using congrArg String.toList hempty
  exact (pieces_of_spanReference text).1 (by simpa using hstarts) (hnil ▸ hpiece)

theorem references_of_readPadding? {text rest : List Char} {type : ScalarExpr}
    (h : readPadding? text = some (type, rest)) : type.references = [] := by
  unfold readPadding? at h
  obtain ⟨afterKeyword, -, hrest⟩ := Option.bind_eq_some_iff.mp h
  obtain ⟨⟨digits, behind⟩, -, hlast⟩ := Option.bind_eq_some_iff.mp hrest
  dsimp only at hlast
  split at hlast
  · cases hlast
    rfl
  · cases hlast

theorem references_of_readBoolean? {text rest : List Char} {type : ScalarExpr}
    (h : readBoolean? text = some (type, rest)) : type.references = [] := by
  unfold readBoolean? at h
  obtain ⟨behind, -, hlast⟩ := Option.bind_eq_some_iff.mp h
  split at hlast
  · cases hlast
    rfl
  · cases hlast

theorem references_of_readNumeric? {kind : ScalarKind} {text rest : List Char}
    {type : ScalarExpr} (h : readNumeric? kind text = some (type, rest)) :
    type.references = [] := by
  unfold readNumeric? at h
  obtain ⟨afterKeyword, -, hrest⟩ := Option.bind_eq_some_iff.mp h
  obtain ⟨⟨digits, behind⟩, -, hlast⟩ := Option.bind_eq_some_iff.mp hrest
  dsimp only at hlast
  split at hlast
  · cases hlast
    rfl
  · cases hlast

theorem regular_of_readScalar? {text rest : List Char} {type : ScalarExpr}
    (h : readScalar? text = some (type, rest)) : ∀ written ∈ type.references, Regular written := by
  have hbuiltIn : type.references = [] → ∀ written ∈ type.references, Regular written := by
    intro hnone written hwritten
    rw [hnone] at hwritten
    cases hwritten
  unfold readScalar? at h
  simp only [Option.orElse_eq_or, HOrElse.hOrElse, OrElse.orElse, Option.or_eq_some_iff] at h
  rcases h with h | ⟨-, h | ⟨-, h | ⟨-, h | ⟨-, h | ⟨-, h⟩⟩⟩⟩⟩
  · exact hbuiltIn (references_of_readPadding? h)
  · exact hbuiltIn (references_of_readBoolean? h)
  · exact hbuiltIn (references_of_readNumeric? h)
  · exact hbuiltIn (references_of_readNumeric? h)
  · exact hbuiltIn (references_of_readNumeric? h)
  · exact regular_of_readReference? h

theorem regular_of_readType? {text rest : List Char} {type : TypeExpr}
    (h : readType? text = some (type, rest)) : ∀ written ∈ type.references, Regular written := by
  unfold readType? at h
  obtain ⟨⟨element, behind⟩, helement, hrest⟩ := Option.bind_eq_some_iff.mp h
  have hregular := regular_of_readScalar? helement
  dsimp only at hrest
  split at hrest
  · cases hrest
    exact hregular
  · cases hrest
    exact hregular

theorem type_of_readNamed? {cast : CastMode} {type : TypeExpr} {text : List Char}
    {attr : AttributeExpr} (h : readNamed? cast type text = some attr) : attr.type = type := by
  unfold readNamed? at h
  obtain ⟨⟨name, afterName⟩, -, hrest⟩ := Option.bind_eq_some_iff.mp h
  dsimp only at hrest
  split at hrest
  · cases hrest
    rfl
  · split at hrest
    · cases hrest
    · cases hrest
      rfl
  · cases hrest

theorem regular_of_readAttribute? {text : List Char} {attr : AttributeExpr}
    (h : readAttribute? text = some attr) : ∀ written ∈ attr.type.references, Regular written := by
  unfold readAttribute? at h
  obtain ⟨⟨type, afterType⟩, htype, hrest⟩ := Option.bind_eq_some_iff.mp h
  have hregular := regular_of_readType? htype
  dsimp only at hrest
  split at hrest
  · cases hrest
    exact hregular
  · rwa [type_of_readNamed? hrest]

/-- A reference in a statement has no empty segments. -/
theorem regular_of_read? {line : List Char} {statement : Statement}
    (h : read? line = some statement) : ∀ written ∈ statement.references, Regular written := by
  cases statement with
  | separator => exact fun written hwritten => (nomatch hwritten)
  | directive name hasArgument => exact fun written hwritten => (nomatch hwritten)
  | member attr =>
    unfold read? at h
    dsimp only at h
    split at h
    · split at h <;> cases h
    · rcases Option.or_eq_some_iff.mp (Option.orElse_eq_or.symm.trans h) with
        hdirective | ⟨-, hmember⟩
      · unfold readDirective? at hdirective
        obtain ⟨afterSign, -, hrest⟩ := Option.bind_eq_some_iff.mp hdirective
        obtain ⟨⟨name, afterName⟩, -, hlast⟩ := Option.bind_eq_some_iff.mp hrest
        cases hlast
      · obtain ⟨read, hread, hattr⟩ := Option.map_eq_some_iff.mp hmember
        cases hattr
        exact regular_of_readAttribute? hread

end Statement

/-- A reference in a line has no empty segments. -/
theorem regular_of_mem_referencesIn {line : List Char} {written : String}
    (h : written ∈ referencesIn line) : Regular written := by
  unfold referencesIn at h
  split at h
  · cases h
  · next hread => exact Statement.regular_of_read? hread written h

/-! ## Names that references are read as -/

theorem Reference.regular_fullName {nameSpace written : String} {reference : Reference}
    (hspace : nameSpace = "" ∨ Regular nameSpace) (hwritten : Regular written)
    (h : Reference.read? nameSpace written = some reference) : Regular reference.fullName := by
  have hqualified : Regular (if isLocal written then qualify nameSpace written else written) := by
    split
    · exact regular_qualify_iff.mpr ⟨hspace, hwritten⟩
    · exact hwritten
  have hsegments : "" ∉ reference.nameSpace ++ [reference.name] := by
    intro hempty
    have hmem := (isPrefix_of_ofReversed? h).subset hempty
    rw [List.reverse_reverse] at hmem
    exact hqualified hmem
  rw [List.mem_append, not_or] at hsegments
  rw [Regular, fullName, nameSpaceText, split_qualify (notMem_of_read? h)]
  split
  · exact hsegments.2
  · exact fun hmem => (List.mem_append.mp hmem).elim hsegments.1 hsegments.2

namespace SourceFile

variable {tree : FileTree} {root : Path} {s : SourceFile}

/-- A line of the file holds the reference. -/
def Writes (tree : FileTree) (s : SourceFile) (index : Nat) (written : String) : Prop :=
  ∃ text line, tree.read? s.path = .ok text ∧ (Text.lines text.toList)[index]? = some line ∧
    written ∈ referencesIn line

/-- A line of a file of the tree holds a reference that leads to another one. -/
def RefersAt (tree : FileTree) (root : Path) (s : SourceFile) (index : Nat)
    (reference : Reference) (target : SourceFile) : Prop :=
  s ∈ tree.sources root ∧ ∃ written, s.Writes tree index written ∧
    Reference.read? s.nameSpace written = some reference ∧
    reference.locate tree root written (.line s.path.text (index + 1)) = .ok target

theorem RefersAt.located {index : Nat} {reference : Reference} {target : SourceFile}
    (h : s.RefersAt tree root index reference target) : Load.Located tree root target := by
  obtain ⟨-, written, -, hread, hlocate⟩ := h
  exact ⟨_, written, reference, _, hread, hlocate⟩

/-- The file behind a reference has a name without empty segments. -/
theorem RefersAt.regular {index : Nat} {reference : Reference} {target : SourceFile}
    (h : s.RefersAt tree root index reference target) : Regular target.name := by
  obtain ⟨-, written, -, hread, hlocate⟩ := h
  exact Reference.regular_of_locate hread hlocate

/-- A file with a name without empty segments refers to names without empty segments. -/
theorem RefersAt.regular_fullName {index : Nat} {reference : Reference} {target : SourceFile}
    (h : s.RefersAt tree root index reference target) (hs : Regular s.name) :
    Regular reference.fullName := by
  obtain ⟨-, written, ⟨text, line, -, -, hwritten⟩, hread, -⟩ := h
  exact Reference.regular_fullName (regular_qualify_iff.mp hs).1
    (regular_of_mem_referencesIn hwritten) hread

/-- A name without empty segments is the name of the file that a reference to it leads to. -/
theorem RefersAt.name_eq {index : Nat} {reference : Reference} {target : SourceFile}
    (h : s.RefersAt tree root index reference target) (hname : Regular reference.fullName) :
    target.name = reference.fullName := by
  obtain ⟨-, written, -, hread, hlocate⟩ := h
  exact Reference.name_of_locate_of_regular hread hlocate hname

end SourceFile

/-! ## Files that are read -/

theorem TypeTable.getElem?_of_find? {table : TypeTable} {name : String} {id : Nat}
    (h : table.find? name = some id) : ∃ d, table.definitions[id]? = some d ∧ d.name = name := by
  obtain ⟨hid, hname, -⟩ := List.findIdx?_eq_some_iff_getElem.mp h
  exact ⟨table.definitions[id], List.getElem?_eq_getElem hid, by simpa using hname⟩

namespace Load

section Elaboration

variable {resolve : Resolver} {located : LineFault → SchemaError} {table after : TypeTable}

/-- Resolving a reference leaves the table as it is. -/
def Keeps (resolve : Resolver) : Prop :=
  ∀ located written table, ((resolve located written).run table).2 = table

variable (hkeeps : Keeps resolve)

include hkeeps

theorem resolved_of_elaborateScalar {cast : CastMode} {expr : ScalarExpr} {type : FieldType}
    (h : (elaborateScalar resolve located cast expr).run table = (.ok type, after)) :
    after = table ∧ ∀ written ∈ expr.references,
      ∃ id, (resolve located written).run table = (.ok id, table) := by
  cases expr with
  | padding digits => exact ⟨(ofLine_eq_ok h).2.symm, fun _ hwritten => (nomatch hwritten)⟩
  | boolean =>
    cases h
    exact ⟨rfl, fun _ hwritten => (nomatch hwritten)⟩
  | numeric kind digits => exact ⟨(ofLine_eq_ok h).2.symm, fun _ hwritten => (nomatch hwritten)⟩
  | named reference =>
    obtain ⟨id, middle, hresolve, hlast⟩ := run_bind_eq_ok h
    have hsame := hkeeps located reference table
    rw [hresolve] at hsame
    obtain rfl : middle = table := hsame
    cases hlast
    refine ⟨rfl, fun written hwritten => ⟨id, ?_⟩⟩
    rwa [List.mem_singleton.mp hwritten]

theorem resolved_of_elaborateType {cast : CastMode} {expr : TypeExpr} {type : FieldType}
    (h : (elaborateType resolve located cast expr).run table = (.ok type, after)) :
    after = table ∧ ∀ written ∈ expr.references,
      ∃ id, (resolve located written).run table = (.ok id, table) := by
  cases expr with
  | scalar type => exact resolved_of_elaborateScalar hkeeps h
  | array element bound =>
    obtain ⟨type, middle, hscalar, hrest⟩ := run_bind_eq_ok h
    obtain ⟨rfl, hresolved⟩ := resolved_of_elaborateScalar hkeeps hscalar
    rw [run_get_bind] at hrest
    exact ⟨(ofLine_eq_ok hrest).2.symm, hresolved⟩

theorem resolved_of_elaborateLine {draft next : DefinitionDraft} {line : List Char}
    (h : (elaborateLine resolve located draft line).run table = (.ok next, after)) :
    after = table ∧ ∀ written ∈ referencesIn line,
      ∃ id, (resolve located written).run table = (.ok id, table) := by
  unfold elaborateLine at h
  split at h
  · next hblank =>
    cases h
    rw [referencesIn_of_blank hblank]
    exact ⟨rfl, fun _ hwritten => (nomatch hwritten)⟩
  split at h
  · cases h
  next statement hread =>
  rw [referencesIn_of_read? hread]
  cases statement with
  | separator => exact ⟨(ofLine_eq_ok h).2.symm, fun _ hwritten => (nomatch hwritten)⟩
  | directive name hasArgument =>
    exact ⟨(ofLine_eq_ok h).2.symm, fun _ hwritten => (nomatch hwritten)⟩
  | member attr =>
    obtain ⟨type, middle, htype, hrest⟩ := run_bind_eq_ok h
    obtain ⟨rfl, hresolved⟩ := resolved_of_elaborateType hkeeps htype
    obtain ⟨made, last, hmake, hpush⟩ := run_bind_eq_ok hrest
    obtain ⟨-, rfl⟩ := ofLine_eq_ok hmake
    rw [run_get_bind] at hpush
    exact ⟨(ofLine_eq_ok hpush).2.symm, hresolved⟩

theorem resolved_of_elaborateLines {path : String} {number : Nat} {lines : List (List Char)}
    {draft next : DefinitionDraft}
    (h : (elaborateLines resolve path number lines draft).run table = (.ok next, after)) :
    ∀ index line, lines[index]? = some line → ∀ written ∈ referencesIn line,
      ∃ id, (resolve (.line path (number + index)) written).run table = (.ok id, table) := by
  induction lines generalizing number draft with
  | nil => exact fun _ _ hline => (nomatch hline)
  | cons first rest ih =>
    obtain ⟨between, middle, hfirst, hrest⟩ := run_bind_eq_ok h
    obtain ⟨rfl, hresolved⟩ := resolved_of_elaborateLine hkeeps hfirst
    intro index line hline written hwritten
    cases index with
    | zero =>
      cases hline
      exact hresolved written hwritten
    | succ index =>
      rw [← Nat.add_assoc, Nat.add_right_comm]
      exact ih hrest index line hline written hwritten

/-- A text can only be read if all its references are resolved. -/
theorem resolved_of_elaborateText {source : SourceFile} {text : String} {d : Definition}
    (h : (elaborateText resolve source text).run table = (.ok d, after)) :
    ∀ index line, (Text.lines text.toList)[index]? = some line → ∀ written ∈ referencesIn line,
      ∃ id, (resolve (.line source.path.text (index + 1)) written).run table = (.ok id, table) := by
  obtain ⟨draft, hlines, -⟩ := elaborateText_eq_ok h
  intro index line hline written hwritten
  rw [Nat.add_comm]
  exact resolved_of_elaborateLines hkeeps hlines index line hline written hwritten

end Elaboration

variable {tree : FileTree} {root : Path} {s : SourceFile}

theorem checkReference_eq_ok {located : LineFault → SchemaError} {text : String}
    {reference : Reference} {id result : Nat} {table after : TypeTable}
    (h : (checkReference located text reference id).run table = (.ok result, after)) :
    result = id ∧ ∃ d, table.definitions[id]? = some d ∧ d.isService = false ∧
      ∀ wanted ∈ reference.version, d.version = wanted := by
  unfold checkReference at h
  rw [run_get_bind] at h
  split at h
  · cases h
  next d hd =>
  have hembed : (if d.isService = true then
      (throw (located (.embeddedService reference.fullName)) : Load Unit) >>= fun _ => pure id
      else pure id : Load Nat).run table = (.ok result, after) → result = id ∧ d.isService = false := by
    intro hembed
    split at hembed
    · cases hembed
    · next hservice =>
      cases hembed
      exact ⟨rfl, by simpa using hservice⟩
  dsimp only at h
  split at h
  · next wanted hwanted =>
    split at h
    · cases h
    · next hversion =>
      obtain ⟨rfl, hservice⟩ := hembed h
      refine ⟨rfl, d, hd, hservice, fun other hother => ?_⟩
      rw [hwanted] at hother
      cases hother
      exact not_not.mp hversion
  · next hwanted =>
    obtain ⟨rfl, hservice⟩ := hembed h
    refine ⟨rfl, d, hd, hservice, fun other hother => ?_⟩
    rw [hwanted] at hother
    cases hother

theorem keeps_checkReference (located : LineFault → SchemaError) (text : String)
    (reference : Reference) (id : Nat) (table : TypeTable) :
    ((checkReference located text reference id).run table).2 = table := by
  cases hd : table.definitions[id]? with
  | none =>
    unfold checkReference
    rw [run_get_bind, hd]
    rfl
  | some d =>
    obtain ⟨result, hresult⟩ := checkReference_of_getElem? located text reference id d
    rw [hresult table hd]

theorem keeps_lookup (tree : FileTree) (root : Path) (s : SourceFile) :
    Keeps (lookup tree root s) := by
  intro located written table
  unfold lookup
  split
  · rfl
  · split
    · rfl
    · rw [run_get_bind]
      split
      · exact keeps_checkReference located written _ _ table
      · rfl

/--
A reference is looked up as a message with the version that it asks for, by the name that it is read
as or by the name of the file that it leads to.
-/
theorem lookup_eq_ok {located : LineFault → SchemaError} {written : String} {id : Nat}
    {table after : TypeTable}
    (h : (lookup tree root s located written).run table = (.ok id, after)) :
    ∃ reference target d, Reference.read? s.nameSpace written = some reference ∧
      reference.locate tree root written located = .ok target ∧
      (table.find? reference.fullName <|> table.find? target.name) = some id ∧
      table.definitions[id]? = some d ∧ (d.name = reference.fullName ∨ d.name = target.name) ∧
      d.isService = false ∧ ∀ wanted ∈ reference.version, d.version = wanted := by
  unfold lookup at h
  split at h
  · cases h
  next reference hread =>
  split at h
  · cases h
  next target hlocate =>
  rw [run_get_bind] at h
  split at h
  swap
  · cases h
  next found hfound =>
  obtain ⟨rfl, d, hd, hservice, hversion⟩ := checkReference_eq_ok h
  refine ⟨reference, target, d, hread, hlocate, hfound, hd, ?_, hservice, hversion⟩
  rcases Option.or_eq_some_iff.mp (Option.orElse_eq_or.symm.trans hfound) with hname | ⟨-, hname⟩
  · obtain ⟨other, hother, hname⟩ := TypeTable.getElem?_of_find? hname
    cases hother.symm.trans hd
    exact Or.inl hname
  · obtain ⟨other, hother, hname⟩ := TypeTable.getElem?_of_find? hname
    cases hother.symm.trans hd
    exact Or.inr hname

/-- Every reference of a file that is read from a table leads to a file and is found. -/
theorem ReadFrom.finds {d : Definition} {table : TypeTable} (h : ReadFrom tree root s d table)
    (hs : s ∈ tree.sources root) {index : Nat} {written : String} (hwritten : s.Writes tree index written) :
    ∃ (reference : Reference) (target : SourceFile) (id : Nat) (found : Definition),
      Reference.read? s.nameSpace written = some reference ∧
      s.RefersAt tree root index reference target ∧
      table.definitions[id]? = some found ∧
      (found.name = reference.fullName ∨ found.name = target.name) := by
  obtain ⟨text, htext, hrun⟩ := h
  obtain ⟨same, line, hsame, hline, hmem⟩ := id hwritten
  cases htext.symm.trans hsame
  obtain ⟨id, hresolve⟩ :=
    resolved_of_elaborateText (keeps_lookup tree root s) hrun index line hline written hmem
  obtain ⟨reference, target, found, hread, hlocate, -, hfound, hname, -⟩ := lookup_eq_ok hresolve
  exact ⟨reference, target, id, found, hread, ⟨hs, written, hwritten, hread, hlocate⟩, hfound,
    hname⟩

end Load

end BusSchema
