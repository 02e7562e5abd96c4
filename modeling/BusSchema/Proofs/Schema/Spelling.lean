import BusSchema.Proofs.Schema.Notation
import BusSchema.Proofs.Schema.Valid
import BusSchema.Proofs.Text.Numeral

/-!
# Attributes in schema notation

A field whose type holds no compound type, or a constant, is spelled as a line with its cast mode,
its type and its name.  Each part is read up to where the next one starts, so the notation reads the
whole line as an attribute with the same parts (`Padding.tidy_spelling`, `Field.tidy_spelling`,
`Constant.tidy_spelling`).
-/

namespace BusSchema

/-- What holds of some character at a place holds of the only character there. -/
theorem forall_mem_of_exists_mem {α : Type} {place : Option α} {p : α → Prop}
    (h : ∃ a ∈ place, p a) : ∀ a ∈ place, p a := by
  obtain ⟨a, ha, hp⟩ := h
  intro b hb
  rwa [Option.mem_unique hb ha]

/-- What holds of all characters of a text holds of the first and of the last one. -/
theorem exists_head?_of_forall {text : List Char} {p : Char → Prop} (hne : text ≠ [])
    (h : ∀ c ∈ text, p c) : ∃ c ∈ text.head?, p c :=
  ⟨text.head hne, List.head?_eq_some_head hne, h _ (List.head_mem hne)⟩

theorem exists_getLast?_of_forall {text : List Char} {p : Char → Prop} (hne : text ≠ [])
    (h : ∀ c ∈ text, p c) : ∃ c ∈ text.getLast?, p c :=
  ⟨text.getLast hne, List.getLast?_eq_some_getLast hne, h _ (List.getLast_mem hne)⟩

namespace Statement

variable {rest run text : List Char}

/-! ## Characters -/

/-- The character neither starts a comment nor ends a line. -/
def StaysInLine (c : Char) : Prop := c ≠ '#' ∧ c ≠ '\n'

instance (c : Char) : Decidable (StaysInLine c) := inferInstanceAs (Decidable (_ ∧ _))

theorem staysInLine_of_all (h : text.all (fun c => decide (StaysInLine c)) = true) :
    ∀ c ∈ text, StaysInLine c :=
  fun c hc => of_decide_eq_true (List.all_eq_true.mp h c hc)

theorem staysInLine_of_isWordChar {c : Char} (h : isWordChar c = true) : StaysInLine c := by
  constructor
  · rintro rfl
    cases h
  · rintro rfl
    cases h

theorem toNat_of_isWordChar {c : Char} (h : isWordChar c = true) :
    48 ≤ c.toNat ∧ c.toNat ≤ 122 := by
  by_cases hstart : isWordStart c = true
  · have hletter := toNat_of_isWordStart hstart
    omega
  · have hdigit : c.isDigit = true := by
      have hclass : ((c.isAlpha || c.isDigit) || decide (c = '_')) = true := h
      have hother : ¬(c.isAlpha || decide (c = '_')) = true := hstart
      simp only [Bool.or_eq_true] at hclass hother
      tauto
    have hrange := Char.isDigit_iff_toNat.mp hdigit
    have hzero : '0'.toNat = 48 := rfl
    have hnine : '9'.toNat = 57 := rfl
    omega

theorem isBlank_of_isWordChar {c : Char} (h : isWordChar c = true) : Text.isBlank c = false := by
  have hword := toNat_of_isWordChar h
  have hranges : ∀ range ∈ Text.blankRanges, range.2 < 48 ∨ 122 < range.1 := by decide
  unfold Text.isBlank Text.inRanges
  rw [List.any_eq_false]
  intro range hmem hin
  simp only [Bool.and_eq_true, decide_eq_true_eq] at hin
  have hrange := hranges range hmem
  omega

theorem isSkipped_of_not_isBlank {c : Char} (h : Text.isBlank c = false) : isSkipped c = false := by
  rw [isSkipped, Bool.or_eq_false_iff, decide_eq_false_iff_not, decide_eq_false_iff_not]
  constructor
  · rintro rfl
    exact absurd h (by decide)
  · rintro rfl
    exact absurd h (by decide)

/-- A letter, digit or underscore is not skipped. -/
theorem isSkipped_of_isWordChar {c : Char} (h : isWordChar c = true) : isSkipped c = false :=
  isSkipped_of_not_isBlank (isBlank_of_isWordChar h)

theorem isWordChar_of_mem_toString {n : Nat} {c : Char} (h : c ∈ (toString n).toList) :
    isWordChar c = true := by
  unfold isWordChar Char.isAlphanum
  rw [isDigit_of_mem_toString h, Bool.or_true, Bool.true_or]

/-! ## Words -/

theorem readKeyword?_append (keyword : String) (rest : List Char) :
    readKeyword? keyword (keyword.toList ++ rest) = some rest :=
  dropBeginning?_eq_some_iff.mpr rfl

/-- The first character tells that a text does not start with a keyword. -/
theorem readKeyword?_eq_none (keyword : String) {c d : Char} (hc : c ∈ keyword.toList.head?)
    (hd : d ∈ text.head?) (hne : c ≠ d) : readKeyword? keyword text = none := by
  rw [Option.eq_none_iff_forall_ne_some]
  intro rest h
  have htext : text = keyword.toList ++ rest := dropBeginning?_eq_some_iff.mp h
  have hhead : c ∈ text.head? := by
    rw [htext, List.head?_append_of_ne_nil _ (List.ne_nil_of_mem (List.mem_of_mem_head? hc))]
    exact hc
  exact hne (Option.mem_unique hhead hd)

/-- Nothing of a class is found at the start of a text that starts with another character. -/
theorem takeWhile_of_head? {inClass : Char → Bool} (h : ∀ c ∈ text.head?, inClass c = false) :
    text.takeWhile inClass = [] := by
  cases text with
  | nil => rfl
  | cons c text => exact List.takeWhile_cons_of_neg (by simp [h c rfl])

theorem dropWhile_of_head? {inClass : Char → Bool} (h : ∀ c ∈ text.head?, inClass c = false) :
    text.dropWhile inClass = text := by
  cases text with
  | nil => rfl
  | cons c text => exact List.dropWhile_cons_of_neg (by simp [h c rfl])

theorem readRun?_append {inClass : Char → Bool} (hne : run ≠ [])
    (hrun : ∀ c ∈ run, inClass c = true) (hrest : ∀ c ∈ rest.head?, inClass c = false) :
    readRun? inClass (run ++ rest) = some (String.ofList run, rest) := by
  have hwhole : (run ++ rest).takeWhile inClass = run := by
    rw [List.takeWhile_append_of_pos hrun, takeWhile_of_head? hrest, List.append_nil]
  unfold readRun?
  rw [hwhole, List.dropWhile_append_of_pos hrun, dropWhile_of_head? hrest]
  split
  · exact absurd rfl hne
  · rfl

theorem isDigit_of_isWordChar_false {c : Char} (h : isWordChar c = false) : c.isDigit = false := by
  unfold isWordChar Char.isAlphanum at h
  simp only [Bool.or_eq_false_iff] at h
  exact h.1.2

/-- A word ends before the text. -/
theorem isWordChar_head?_of_endsWord (h : endsWord rest = true) :
    ∀ c ∈ rest.head?, isWordChar c = false := by
  intro c hc
  cases rest with
  | nil => cases hc
  | cons d rest =>
    cases hc
    simpa [endsWord] using h

theorem readDigits?_append (n : Nat) (hrest : endsWord rest = true) :
    readDigits? ((toString n).toList ++ rest) = some (toString n, rest) := by
  have hdigits := readRun?_append (Numeral.isDigits_toString n).1
    (fun c hc => isDigit_of_mem_toString hc) fun c hc =>
      isDigit_of_isWordChar_false (isWordChar_head?_of_endsWord hrest c hc)
  rwa [String.ofList_toList] at hdigits

theorem readName?_append {name : String} (hname : IsName name) (hrest : endsWord rest = true) :
    readName? (name.toList ++ rest) = some (name, rest) := by
  obtain ⟨⟨c, hc, hstart⟩, hword⟩ := hname
  have hrun := readRun?_append (List.ne_nil_of_mem (List.mem_of_mem_head? hc)) hword
    (isWordChar_head?_of_endsWord hrest)
  rw [String.ofList_toList] at hrun
  cases hlist : name.toList with
  | nil =>
    rw [hlist] at hc
    cases hc
  | cons d others =>
    rw [hlist] at hc hrun
    cases hc
    rw [List.cons_append] at hrun ⊢
    unfold readName?
    dsimp only
    rw [if_pos hstart, hrun]

theorem readPadding?_eq_none {d : Char} (hd : d ∈ text.head?) (hne : 'v' ≠ d) :
    readPadding? text = none := by
  unfold readPadding?
  rw [readKeyword?_eq_none "void" rfl hd hne]
  rfl

theorem readBoolean?_eq_none {d : Char} (hd : d ∈ text.head?) (hne : 'b' ≠ d) :
    readBoolean? text = none := by
  unfold readBoolean?
  rw [readKeyword?_eq_none "bool" rfl hd hne]
  rfl

theorem readNumeric?_eq_none (kind : ScalarKind) {c d : Char} (hc : c ∈ kind.name.toList.head?)
    (hd : d ∈ text.head?) (hne : c ≠ d) : readNumeric? kind text = none := by
  unfold readNumeric?
  rw [readKeyword?_eq_none _ hc hd hne]
  rfl

theorem readPadding?_append (width : Nat) (hrest : endsWord rest = true) :
    readPadding? ("void".toList ++ ((toString width).toList ++ rest)) =
      some (.padding (toString width), rest) := by
  unfold readPadding?
  rw [readKeyword?_append, Option.bind_eq_bind, Option.bind_some, readDigits?_append width hrest]
  exact if_pos hrest

theorem readBoolean?_append (hrest : endsWord rest = true) :
    readBoolean? ("bool".toList ++ rest) = some (.boolean, rest) := by
  unfold readBoolean?
  rw [readKeyword?_append]
  exact if_pos hrest

theorem readNumeric?_append (kind : ScalarKind) (width : Nat) (hrest : endsWord rest = true) :
    readNumeric? kind (kind.name.toList ++ ((toString width).toList ++ rest)) =
      some (.numeric kind (toString width), rest) := by
  unfold readNumeric?
  rw [readKeyword?_append, Option.bind_eq_bind, Option.bind_some, readDigits?_append width hrest]
  exact if_pos hrest

theorem skip_space (h : ∃ c ∈ text.head?, isSkipped c = false) : skip (' ' :: text) = text :=
  (List.dropWhile_cons_of_pos rfl).trans (dropWhile_of_head? (forall_mem_of_exists_mem h))

/-! ## Array bounds -/

theorem exists_head?_toString_append (n : Nat) (rest : List Char) :
    ∃ d ∈ ((toString n).toList ++ rest).head?, d.isDigit = true := by
  obtain ⟨d, hd, hdigit⟩ := exists_head?_of_forall (Numeral.isDigits_toString n).1
    fun d hd => isDigit_of_mem_toString hd
  exact ⟨d, List.mem_head?_append_of_mem_head? hd, hdigit⟩

theorem skipSpaces_digits (n : Nat) (rest : List Char) :
    skipSpaces ((toString n).toList ++ rest) = (toString n).toList ++ rest := by
  refine dropWhile_of_head? fun d hd => ?_
  have hdigit := forall_mem_of_exists_mem (exists_head?_toString_append n rest) d hd
  rw [decide_eq_false_iff_not]
  rintro rfl
  cases hdigit

theorem readDigitsAfter?_append (sign : String) (n : Nat) (hrest : endsWord rest = true) :
    readDigitsAfter? sign (sign.toList ++ ((toString n).toList ++ rest)) =
      some (toString n, rest) := by
  unfold readDigitsAfter?
  rw [readKeyword?_append, Option.bind_eq_bind, Option.bind_some, skipSpaces_digits,
    readDigits?_append n hrest]

theorem readDigitsAfter?_digits {sign : String} {c : Char} (hc : c ∈ sign.toList.head?)
    (hsign : c.isDigit = false) (n : Nat) (rest : List Char) :
    readDigitsAfter? sign ((toString n).toList ++ rest) = none := by
  obtain ⟨d, hd, hdigit⟩ := exists_head?_toString_append n rest
  have hne : c ≠ d := by
    rintro rfl
    rw [hsign] at hdigit
    cases hdigit
  unfold readDigitsAfter?
  rw [readKeyword?_eq_none _ hc hd hne]
  rfl

end Statement

namespace ArrayMode

/-- The bound of an array of the given size as written. -/
def bound (mode : ArrayMode) (size : Nat) : BoundExpr :=
  match mode with
  | static => .exactly (toString size)
  | dynamic => .atMost (toString size)

/-- What stands between the brackets of an array. -/
def boundText (mode : ArrayMode) (size : Nat) : String :=
  match mode with
  | static => toString size
  | dynamic => "<=" ++ toString size

theorem readBound?_boundText (mode : ArrayMode) (size : Nat) {rest : List Char}
    (hrest : Statement.endsWord rest = true) :
    Statement.readBound? ((mode.boundText size).toList ++ rest) =
      some (mode.bound size, rest) := by
  unfold Statement.readBound?
  cases mode with
  | static =>
    rw [boundText, Statement.readDigitsAfter?_digits (c := '<') rfl rfl,
      Statement.readDigitsAfter?_digits (c := '<') rfl rfl, Statement.readDigits?_append size hrest]
    rfl
  | dynamic =>
    rw [boundText, String.toList_append, List.append_assoc,
      Statement.readDigitsAfter?_append "<=" size hrest]
    rfl

theorem readBrackets?_boundText (mode : ArrayMode) (size : Nat) (rest : List Char) :
    Statement.readBrackets? ('[' :: ((mode.boundText size).toList ++ ']' :: rest)) =
      some (mode.bound size, rest) := by
  have hskip : Statement.skipSpaces ((mode.boundText size).toList ++ ']' :: rest) =
      (mode.boundText size).toList ++ ']' :: rest := by
    cases mode with
    | static => exact Statement.skipSpaces_digits size _
    | dynamic =>
      rw [boundText, String.toList_append, List.append_assoc]
      rfl
  have hopen : Statement.readKeyword? "[" ('[' :: ((mode.boundText size).toList ++ ']' :: rest)) =
      some ((mode.boundText size).toList ++ ']' :: rest) :=
    Statement.readKeyword?_append "[" _
  have hclose : Statement.readKeyword? "]" (Statement.skipSpaces (']' :: rest)) = some rest :=
    Statement.readKeyword?_append "]" rest
  unfold Statement.readBrackets?
  rw [hopen, Option.bind_eq_bind, Option.bind_some, hskip, readBound?_boundText mode size rfl]
  simp only [Option.bind_eq_bind, Option.bind_some]
  rw [hclose]
  rfl

end ArrayMode

/-! ## Types -/

namespace Primitive

/-- The type without its cast mode. -/
def word (p : Primitive) : String :=
  match p.kind with
  | .bool => "bool"
  | kind => kind.name ++ toString p.width

theorem spelling_eq (p : Primitive) : p.spelling = p.cast.name ++ " " ++ p.word := by
  obtain ⟨kind, width, cast, hallowed⟩ := p
  cases kind <;> simp [spelling, word, String.append_assoc]

/-- The type as written. -/
def expr (p : Primitive) : ScalarExpr :=
  match p.kind with
  | .bool => .boolean
  | kind => .numeric kind (toString p.width)

/-- The type without its cast mode is read, whatever stands behind the word. -/
theorem readScalar?_word (p : Primitive) {rest : List Char}
    (hrest : Statement.endsWord rest = true) :
    Statement.readScalar? (p.word.toList ++ rest) = some (p.expr, rest) := by
  obtain ⟨kind, width, cast, hallowed⟩ := p
  have hnumeric := fun kind => Statement.readNumeric?_append kind width hrest
  have hword : kind ≠ .bool → (word ⟨kind, width, cast, hallowed⟩).toList ++ rest =
      kind.name.toList ++ ((toString width).toList ++ rest) := by
    intro hne
    rw [← List.append_assoc, ← String.toList_append]
    cases kind with
    | bool => exact absurd rfl hne
    | _ => rfl
  unfold Statement.readScalar?
  -- The keywords start with different letters, so at most one of them is found.
  cases kind with
  | void => exact hallowed.elim
  | bool =>
    have hbool : word ⟨.bool, width, cast, hallowed⟩ = "bool" := rfl
    rw [hbool, Statement.readPadding?_eq_none (d := 'b') rfl (by decide),
      Statement.readBoolean?_append hrest]
    rfl
  | unsigned =>
    rw [hword nofun, Statement.readPadding?_eq_none (d := 'u') rfl (by decide),
      Statement.readBoolean?_eq_none (d := 'u') rfl (by decide), hnumeric .unsigned]
    rfl
  | signed =>
    rw [hword nofun, Statement.readPadding?_eq_none (d := 'i') rfl (by decide),
      Statement.readBoolean?_eq_none (d := 'i') rfl (by decide),
      Statement.readNumeric?_eq_none .unsigned (d := 'i') rfl rfl (by decide),
      hnumeric .signed]
    rfl
  | float =>
    rw [hword nofun, Statement.readPadding?_eq_none (d := 'f') rfl (by decide),
      Statement.readBoolean?_eq_none (d := 'f') rfl (by decide),
      Statement.readNumeric?_eq_none .unsigned (d := 'f') rfl rfl (by decide),
      Statement.readNumeric?_eq_none .signed (d := 'f') rfl rfl (by decide),
      hnumeric .float]
    rfl

/-- The type of a single value, or of an array of a mode and a size. -/
def repeated (p : Primitive) : Option (ArrayMode × Nat) → FieldType
  | none => .primitive p
  | some (mode, size) => .array (.primitive p) mode size

theorem isPadding_repeated (p : Primitive) (times : Option (ArrayMode × Nat)) :
    (p.repeated times).isPadding = false := by
  cases times <;> rfl

/-- The type of a single value or of an array, without its cast mode. -/
def repeatedWord (p : Primitive) : Option (ArrayMode × Nat) → String
  | none => p.word
  | some (mode, size) => p.word ++ "[" ++ mode.boundText size ++ "]"

/-- The type of a single value or of an array, as written. -/
def repeatedExpr (p : Primitive) : Option (ArrayMode × Nat) → TypeExpr
  | none => .scalar p.expr
  | some (mode, size) => .array p.expr (mode.bound size)

theorem spelling_repeated (p : Primitive) (times : Option (ArrayMode × Nat)) (table : TypeTable) :
    (p.repeated times).spelling table = p.cast.name ++ " " ++ p.repeatedWord times := by
  cases times with
  | none => exact p.spelling_eq
  | some array =>
    obtain ⟨mode, size⟩ := array
    have helement : (FieldType.primitive p).spelling table = p.cast.name ++ " " ++ p.word :=
      p.spelling_eq
    cases mode with
    | static =>
      rw [repeated, FieldType.spelling, helement, repeatedWord, ArrayMode.boundText]
      simp only [String.append_assoc]
    | dynamic =>
      have hbracket : "[<=" = "[" ++ "<=" := rfl
      rw [repeated, FieldType.spelling, helement, repeatedWord, ArrayMode.boundText, hbracket]
      simp only [String.append_assoc]

/-- A type is read up to the space behind it. -/
theorem readType?_repeatedWord (p : Primitive) (times : Option (ArrayMode × Nat))
    (rest : List Char) :
    Statement.readType? ((p.repeatedWord times).toList ++ ' ' :: rest) =
      some (p.repeatedExpr times, ' ' :: rest) := by
  unfold Statement.readType?
  cases times with
  | none =>
    rw [repeatedWord, p.readScalar?_word rfl]
    rfl
  | some array =>
    obtain ⟨mode, size⟩ := array
    have htext : (p.repeatedWord (some (mode, size))).toList ++ ' ' :: rest =
        p.word.toList ++ '[' :: ((mode.boundText size).toList ++ ']' :: ' ' :: rest) := by
      simp [repeatedWord]
    rw [htext, p.readScalar?_word rfl]
    simp only [Option.bind_eq_bind, Option.bind_some]
    rw [mode.readBrackets?_boundText]
    rfl

end Primitive

/-! ## Lines -/

theorem CastMode.name_ne_empty (cast : CastMode) : cast.name.toList ≠ [] := by
  cases cast <;> exact List.cons_ne_nil _ _

namespace Statement

variable {cast : CastMode} {type : TypeExpr} {name : String} {line body tail : List Char}

theorem isWordChar_of_mem_cast (cast : CastMode) :
    ∀ c ∈ cast.name.toList, isWordChar c = true := by
  cases cast <;> exact List.all_eq_true.mp rfl

theorem splitCast_append (cast : CastMode) (body : List Char) :
    splitCast (cast.name.toList ++ ' ' :: body) = (cast, ' ' :: body) := by
  have hread : readCast? cast (cast.name.toList ++ ' ' :: body) = some (cast, ' ' :: body) := by
    unfold readCast?
    rw [readKeyword?_append]
    rfl
  unfold splitCast
  cases cast with
  | saturated =>
    rw [hread]
    rfl
  | truncated =>
    have hother : readCast? .saturated (CastMode.truncated.name.toList ++ ' ' :: body) = none := rfl
    rw [hother, hread]
    rfl

theorem readNamed?_name (hname : IsName name) (cast : CastMode) (type : TypeExpr) :
    readNamed? cast type name.toList = some ⟨cast, type, some name, none⟩ := by
  have hread : readName? name.toList = some (name, []) := by
    have happend : readName? (name.toList ++ []) = some (name, []) := readName?_append hname rfl
    rwa [List.append_nil] at happend
  unfold readNamed?
  rw [hread]
  rfl

theorem readNamed?_literal (hname : IsName name) {literal : String}
    (hliteral : ∃ c ∈ literal.toList.head?, isSkipped c = false) (cast : CastMode)
    (type : TypeExpr) :
    readNamed? cast type (name.toList ++ ' ' :: '=' :: ' ' :: literal.toList) =
      some ⟨cast, type, some name, some literal⟩ := by
  have hequals : skip (' ' :: '=' :: ' ' :: literal.toList) = '=' :: ' ' :: literal.toList := rfl
  unfold readNamed?
  rw [readName?_append hname rfl]
  simp only [Option.bind_eq_bind, Option.bind_some]
  rw [hequals]
  simp only
  rw [skip_space hliteral]
  obtain ⟨first, hfirst, -⟩ := hliteral
  split
  · next hempty =>
    rw [hempty] at hfirst
    cases hfirst
  · rw [String.ofList_toList]

/-- A line is an attribute if it starts with a letter. -/
theorem read?_of_head? {first : Char} (hfirst : first ∈ line.head?)
    (hletter : isWordChar first = true) : read? line = (readAttribute? line).map .member := by
  have hskip : skip line = line :=
    dropWhile_of_head? (forall_mem_of_exists_mem ⟨first, hfirst, isSkipped_of_isWordChar hletter⟩)
  have hne : ∀ c, isWordChar c = false → c ≠ first := by
    rintro c hc rfl
    rw [hletter] at hc
    cases hc
  have hseparator : readKeyword? "---" line = none :=
    readKeyword?_eq_none _ (c := '-') rfl hfirst (hne '-' rfl)
  have hdirective : readDirective? line = none := by
    unfold readDirective?
    rw [readKeyword?_eq_none _ (c := '@') rfl hfirst (hne '@' rfl)]
    rfl
  unfold read?
  simp only
  rw [hskip, hseparator, hdirective]
  rfl

/-- The cast mode and the type of a line are read before its name. -/
theorem readAttribute?_append (hbody : ∃ c ∈ (body ++ ' ' :: tail).head?, isSkipped c = false)
    (htype : readType? (body ++ ' ' :: tail) = some (type, ' ' :: tail))
    (htail : ∃ c ∈ tail.head?, isSkipped c = false) :
    readAttribute? (cast.name.toList ++ ' ' :: (body ++ ' ' :: tail)) =
      readNamed? cast type tail := by
  unfold readAttribute?
  rw [splitCast_append]
  simp only
  rw [skip_space hbody, htype]
  simp only [Option.bind_eq_bind, Option.bind_some]
  rw [skip_space htail]
  obtain ⟨first, hfirst, -⟩ := htail
  split
  · cases hfirst
  · rfl

/-! ## Tidy lines -/

/-- The line is an attribute, without a comment and without blanks at its ends. -/
structure Tidy (line : List Char) (attr : AttributeExpr) : Prop where
  read : read? line = some (.member attr)
  stays : ∀ c ∈ line, StaysInLine c
  first : ∃ c ∈ line.head?, Text.isBlank c = false
  last : ∃ c ∈ line.getLast?, Text.isBlank c = false

theorem IsName.exists_last {name : String} (h : IsName name) :
    ∃ c ∈ name.toList.getLast?, Text.isBlank c = false := by
  obtain ⟨⟨c, hc, -⟩, hword⟩ := h
  exact exists_getLast?_of_forall (List.ne_nil_of_mem (List.mem_of_mem_head? hc))
    fun c hc => isBlank_of_isWordChar (hword c hc)

end Statement

namespace Padding

theorem toList_spelling (p : Padding) :
    p.spelling.toList = "void".toList ++ (toString p.width).toList :=
  String.toList_append

theorem readAttribute?_spelling (p : Padding) :
    Statement.readAttribute? p.spelling.toList =
      some ⟨.saturated, .scalar (.padding (toString p.width)), none, none⟩ := by
  have hcast : Statement.splitCast p.spelling.toList = (.saturated, p.spelling.toList) := by
    rw [p.toList_spelling]
    rfl
  have hskip : Statement.skip p.spelling.toList = p.spelling.toList := by
    rw [p.toList_spelling]
    rfl
  have hpadding : Statement.readPadding? ("void".toList ++ ((toString p.width).toList ++ [])) =
      some (.padding (toString p.width), []) := Statement.readPadding?_append p.width rfl
  rw [List.append_nil, ← p.toList_spelling] at hpadding
  have htype : Statement.readType? p.spelling.toList =
      some (.scalar (.padding (toString p.width)), []) := by
    unfold Statement.readType? Statement.readScalar?
    rw [hpadding]
    rfl
  unfold Statement.readAttribute?
  rw [hcast]
  simp only
  rw [hskip, htype]
  rfl

/-- Padding is spelled as a tidy line, which is a single word. -/
theorem tidy_spelling (p : Padding) :
    Statement.Tidy p.spelling.toList
      ⟨.saturated, .scalar (.padding (toString p.width)), none, none⟩ := by
  have hword : ∀ c ∈ p.spelling.toList, Statement.isWordChar c = true := by
    rw [p.toList_spelling]
    exact List.forall_mem_append.mpr
      ⟨List.all_eq_true.mp rfl, fun c hc => Statement.isWordChar_of_mem_toString hc⟩
  have hblank : ∀ c ∈ p.spelling.toList, Text.isBlank c = false :=
    fun c hc => Statement.isBlank_of_isWordChar (hword c hc)
  have hne : p.spelling.toList ≠ [] := by
    rw [p.toList_spelling]
    exact List.cons_ne_nil _ _
  obtain ⟨first, hfirst, hletter⟩ := exists_head?_of_forall hne hword
  exact
    { read := by
        rw [Statement.read?_of_head? hfirst hletter, p.readAttribute?_spelling]
        rfl
      stays := fun c hc => Statement.staysInLine_of_isWordChar (hword c hc)
      first := exists_head?_of_forall hne hblank
      last := exists_getLast?_of_forall hne hblank }

end Padding

namespace Primitive

theorem isWordChar_of_mem_word (p : Primitive) :
    ∀ c ∈ p.word.toList, Statement.isWordChar c = true := by
  obtain ⟨kind, width, cast, hallowed⟩ := p
  have hnumeric : ∀ kind : ScalarKind,
      (∀ c ∈ kind.name.toList, Statement.isWordChar c = true) →
      ∀ c ∈ (kind.name ++ toString width).toList, Statement.isWordChar c = true := by
    intro kind hkind
    rw [String.toList_append]
    exact List.forall_mem_append.mpr
      ⟨hkind, fun c hc => Statement.isWordChar_of_mem_toString hc⟩
  cases kind with
  | bool =>
    have hbool : ∀ c ∈ "bool".toList, Statement.isWordChar c = true := List.all_eq_true.mp rfl
    exact hbool
  | void => exact hallowed.elim
  | unsigned => exact hnumeric .unsigned (List.all_eq_true.mp rfl)
  | signed => exact hnumeric .signed (List.all_eq_true.mp rfl)
  | float => exact hnumeric .float (List.all_eq_true.mp rfl)

theorem word_ne_empty (p : Primitive) : p.word.toList ≠ [] := by
  obtain ⟨kind, width, cast, hallowed⟩ := p
  cases kind <;> simp [word, ScalarKind.name]

theorem staysInLine_of_mem_repeatedWord (p : Primitive) (times : Option (ArrayMode × Nat)) :
    ∀ c ∈ (p.repeatedWord times).toList, Statement.StaysInLine c := by
  have hword : ∀ c ∈ p.word.toList, Statement.StaysInLine c :=
    fun c hc => Statement.staysInLine_of_isWordChar (p.isWordChar_of_mem_word c hc)
  have hdigits : ∀ (size : Nat), ∀ c ∈ (toString size).toList, Statement.StaysInLine c :=
    fun size c hc =>
      Statement.staysInLine_of_isWordChar (Statement.isWordChar_of_mem_toString hc)
  rcases times with - | ⟨mode, size⟩
  · exact hword
  have hbound : ∀ c ∈ (mode.boundText size).toList, Statement.StaysInLine c := by
    cases mode with
    | static => exact hdigits size
    | dynamic =>
      rw [ArrayMode.boundText, String.toList_append]
      exact List.forall_mem_append.mpr ⟨Statement.staysInLine_of_all rfl, hdigits size⟩
  rw [repeatedWord, String.toList_append, String.toList_append, String.toList_append]
  simp only [List.forall_mem_append]
  exact ⟨⟨⟨hword, Statement.staysInLine_of_all rfl⟩, hbound⟩, Statement.staysInLine_of_all rfl⟩

/-- The type starts with a letter. -/
theorem exists_first_repeatedWord (p : Primitive) (times : Option (ArrayMode × Nat)) :
    ∃ c ∈ (p.repeatedWord times).toList.head?, Statement.isWordChar c = true := by
  obtain ⟨c, hc, hword⟩ := exists_head?_of_forall p.word_ne_empty p.isWordChar_of_mem_word
  refine ⟨c, ?_, hword⟩
  rcases times with - | ⟨mode, size⟩
  · exact hc
  · rw [repeatedWord, String.toList_append, String.toList_append, String.toList_append,
      List.append_assoc, List.append_assoc]
    exact List.mem_head?_append_of_mem_head? hc

/-- A type and what stands behind it, separated by a space, are a tidy line. -/
theorem tidy_repeated (p : Primitive) (times : Option (ArrayMode × Nat)) {tail : List Char}
    {attr : AttributeExpr}
    (hnamed : Statement.readNamed? p.cast (p.repeatedExpr times) tail = some attr)
    (hstays : ∀ c ∈ tail, Statement.StaysInLine c)
    (hfirst : ∃ c ∈ tail.head?, Statement.isWordStart c = true)
    (hlast : ∃ c ∈ tail.getLast?, Text.isBlank c = false) :
    Statement.Tidy ((p.cast.name ++ " " ++ p.repeatedWord times).toList ++ ' ' :: tail) attr := by
  have hline : (p.cast.name ++ " " ++ p.repeatedWord times).toList ++ ' ' :: tail =
      p.cast.name.toList ++ ' ' :: ((p.repeatedWord times).toList ++ ' ' :: tail) := by
    simp
  have hcast := Statement.isWordChar_of_mem_cast p.cast
  obtain ⟨start, hstart, hletter⟩ := exists_head?_of_forall p.cast.name_ne_empty hcast
  obtain ⟨letter, hletterHead, hletterWord⟩ := p.exists_first_repeatedWord times
  have hbody : ∃ c ∈ ((p.repeatedWord times).toList ++ ' ' :: tail).head?,
      Statement.isSkipped c = false :=
    ⟨letter, List.mem_head?_append_of_mem_head? hletterHead,
      Statement.isSkipped_of_isWordChar hletterWord⟩
  have htail : ∃ c ∈ tail.head?, Statement.isSkipped c = false := by
    obtain ⟨c, hc, hcStart⟩ := hfirst
    have hcWord := Statement.isWordChar_of_isWordStart hcStart
    exact ⟨c, hc, Statement.isSkipped_of_isWordChar hcWord⟩
  have hhead : start ∈ (p.cast.name.toList ++
      ' ' :: ((p.repeatedWord times).toList ++ ' ' :: tail)).head? :=
    List.mem_head?_append_of_mem_head? hstart
  rw [hline]
  refine ⟨?_, ?_, ⟨start, hhead, Statement.isBlank_of_isWordChar hletter⟩, ?_⟩
  · rw [Statement.read?_of_head? hhead hletter, Statement.readAttribute?_append hbody
      (p.readType?_repeatedWord times tail) htail, hnamed]
    rfl
  · simp only [List.forall_mem_append, List.forall_mem_cons]
    exact ⟨fun c hc => Statement.staysInLine_of_isWordChar (hcast c hc), by decide,
      p.staysInLine_of_mem_repeatedWord times, by decide, hstays⟩
  · obtain ⟨c, hc, hblank⟩ := hlast
    refine ⟨c, ?_, hblank⟩
    rw [← hline, List.append_cons]
    exact List.mem_getLast?_append_of_mem_getLast? hc

end Primitive

/-- A named field that is no compound type is spelled as a tidy line. -/
theorem Field.tidy_spelling {name : String} (hname : Statement.IsName name) (p : Primitive)
    (times : Option (ArrayMode × Nat)) (table : TypeTable) :
    Statement.Tidy (Field.spelling table ⟨name, p.repeated times⟩).toList
      ⟨p.cast, p.repeatedExpr times, some name, none⟩ := by
  have hline : (Field.spelling table ⟨name, p.repeated times⟩).toList =
      (p.cast.name ++ " " ++ p.repeatedWord times).toList ++ ' ' :: name.toList := by
    unfold Field.spelling
    rw [p.isPadding_repeated times, p.spelling_repeated times table]
    simp
  rw [hline]
  exact p.tidy_repeated times (Statement.readNamed?_name hname _ _)
    (fun c hc => Statement.staysInLine_of_isWordChar (hname.2 c hc)) hname.1 hname.exists_last

/-- A constant is spelled as a tidy line if its literal has characters, but no blanks and no `#`. -/
theorem Constant.tidy_spelling {c : Constant} (hname : Statement.IsName c.name)
    (hne : c.literal.toList ≠ [])
    (hliteral : ∀ ch ∈ c.literal.toList, Text.isBlank ch = false ∧ ch ≠ '#') :
    Statement.Tidy c.spelling.toList
      ⟨c.type.cast, .scalar c.type.expr, some c.name, some c.literal⟩ := by
  have hline : c.spelling.toList = (c.type.cast.name ++ " " ++ c.type.repeatedWord none).toList ++
      ' ' :: (c.name.toList ++ ' ' :: '=' :: ' ' :: c.literal.toList) := by
    unfold Constant.spelling
    rw [c.type.spelling_eq]
    simp [Primitive.repeatedWord]
  have hfirst := exists_head?_of_forall hne
    fun ch hch => Statement.isSkipped_of_not_isBlank (hliteral ch hch).1
  obtain ⟨last, hlast, hlastBlank⟩ := exists_getLast?_of_forall hne
    fun ch hch => (hliteral ch hch).1
  have hstays : ∀ ch ∈ c.literal.toList, Statement.StaysInLine ch := by
    intro ch hch
    obtain ⟨hblank, hmark⟩ := hliteral ch hch
    refine ⟨hmark, ?_⟩
    rintro rfl
    exact absurd hblank (by decide)
  obtain ⟨start, hstart, hletter⟩ := hname.1
  rw [hline]
  refine c.type.tidy_repeated none (Statement.readNamed?_literal hname hfirst _ _) ?_
    ⟨start, List.mem_head?_append_of_mem_head? hstart, hletter⟩
    ⟨last, ?_, hlastBlank⟩
  · simp only [List.forall_mem_append, List.forall_mem_cons]
    exact ⟨fun ch hch => Statement.staysInLine_of_isWordChar (hname.2 ch hch), by decide,
      by decide, by decide, hstays⟩
  · have hsplit : c.name.toList ++ ' ' :: '=' :: ' ' :: c.literal.toList =
        (c.name.toList ++ [' ', '=', ' ']) ++ c.literal.toList := by simp
    rw [hsplit]
    exact List.mem_getLast?_append_of_mem_getLast? hlast

end BusSchema
