import BusSchema.Schema.Load
import Mathlib.Data.List.TakeWhile

/-!
# Edits that say nothing

Lines may be indented, padded and commented without a change of what they say
(`LineEdited.stripComment_eq`), and lines that hold nothing but blanks and a comment may be put
between them.  `Edited` relates the lines of two texts of which the second arises from the first
that way, and notes under which number each line is found again (`Edited.corresponds`).
-/

namespace BusSchema

namespace Text

variable {blanks text : List Char}

theorem trim_blanks_append (h : ∀ c ∈ blanks, isBlank c = true) :
    trim (blanks ++ text) = trim text := by
  unfold trim
  rw [List.dropWhile_append_of_pos h]

theorem trim_append_blanks (h : ∀ c ∈ blanks, isBlank c = true) :
    trim (text ++ blanks) = trim text := by
  have hreverse : ∀ c ∈ blanks.reverse, isBlank c = true := fun c hc => h c (List.mem_reverse.mp hc)
  unfold trim
  rw [List.dropWhile_append]
  by_cases hempty : (text.dropWhile isBlank).isEmpty = true
  · rw [if_pos hempty, List.dropWhile_eq_nil_iff.mpr h, List.isEmpty_iff.mp hempty]
  · rw [if_neg hempty, List.reverse_append, List.dropWhile_append_of_pos hreverse]

end Text

/-! ## Lines that are read alike -/

/-- There is no text, or it starts a comment. -/
def IsComment (text : List Char) : Prop := ∀ c ∈ text.head?, c = '#'

/-- A line of blanks, with or without a comment behind them. -/
def IsSilent (line : List Char) : Prop :=
  ∃ blanks comment, line = blanks ++ comment ∧ (∀ c ∈ blanks, Text.isBlank c = true) ∧
    IsComment comment

/-- The second line arises from the first one by blanks around its text and comments behind it. -/
inductive LineEdited (line : List Char) : List Char → Prop
  | refl : LineEdited line line
  /-- Blanks are put in front of the line. -/
  | indent {blanks edited : List Char} (hblanks : ∀ c ∈ blanks, Text.isBlank c = true)
    (h : LineEdited line edited) : LineEdited line (blanks ++ edited)
  /-- Blanks are put behind the line, or between its text and its comment. -/
  | pad {text blanks comment : List Char} (hblanks : ∀ c ∈ blanks, Text.isBlank c = true)
    (hcomment : IsComment comment) (h : LineEdited line (text ++ comment)) :
    LineEdited line (text ++ (blanks ++ comment))
  /-- A comment is put behind the line. -/
  | remark (note : List Char) {edited : List Char} (h : LineEdited line edited) :
    LineEdited line (edited ++ '#' :: note)

section Strip

variable {blanks comment text line edited : List Char}

theorem isComment_nil : IsComment [] := nofun

theorem isComment_mark (note : List Char) : IsComment ('#' :: note) :=
  fun _ hc => (Option.some.inj hc).symm

theorem ne_mark_of_isBlank {c : Char} (h : Text.isBlank c = true) : c ≠ '#' := by
  rintro rfl
  exact absurd h (by decide)

theorem stripComment_append_comment (hcomment : IsComment comment) :
    stripComment (line ++ comment) = stripComment line := by
  have hnone : comment.takeWhile (· ≠ '#') = [] := by
    cases comment with
    | nil => rfl
    | cons c rest => exact List.takeWhile_cons_of_neg (by simpa using hcomment c rfl)
  unfold stripComment
  rw [List.takeWhile_append, hnone, List.append_nil]
  split
  · next hwhole => rw [(List.takeWhile_prefix _).eq_of_length hwhole]
  · rfl

theorem stripComment_blanks_append (hblanks : ∀ c ∈ blanks, Text.isBlank c = true) :
    stripComment (blanks ++ line) = stripComment line := by
  have hmarks : ∀ c ∈ blanks, decide (c ≠ '#') = true :=
    fun c hc => decide_eq_true (ne_mark_of_isBlank (hblanks c hc))
  unfold stripComment
  rw [List.takeWhile_append_of_pos hmarks, Text.trim_blanks_append hblanks]

theorem stripComment_append_blanks (hblanks : ∀ c ∈ blanks, Text.isBlank c = true) :
    stripComment (text ++ blanks) = stripComment text := by
  have hmarks : blanks.takeWhile (· ≠ '#') = blanks :=
    List.takeWhile_eq_self_iff.mpr
      fun c hc => decide_eq_true (ne_mark_of_isBlank (hblanks c hc))
  unfold stripComment
  rw [List.takeWhile_append, hmarks]
  split
  · next hwhole =>
    -- The text holds no comment, and the blanks are trimmed with it.
    rw [(List.takeWhile_prefix _).eq_of_length hwhole, Text.trim_append_blanks hblanks]
  · rfl

theorem IsSilent.stripComment_eq (h : IsSilent line) : stripComment line = [] := by
  obtain ⟨blanks, comment, rfl, hblanks, hcomment⟩ := h
  have hempty : stripComment (blanks ++ []) = stripComment [] := stripComment_blanks_append hblanks
  rw [List.append_nil] at hempty
  rw [stripComment_append_comment hcomment, hempty]
  rfl

/-- An edited line says what the line says. -/
theorem LineEdited.stripComment_eq (h : LineEdited line edited) :
    stripComment edited = stripComment line := by
  induction h with
  | refl => rfl
  | indent hblanks h ih => rw [stripComment_blanks_append hblanks, ih]
  | pad hblanks hcomment h ih =>
    rw [stripComment_append_comment hcomment] at ih
    rw [← List.append_assoc, stripComment_append_comment hcomment,
      stripComment_append_blanks hblanks, ih]
  | remark note h ih => rw [stripComment_append_comment (isComment_mark note), ih]

end Strip

/-! ## Texts that are read alike -/

/--
Lines arise from other lines by edits and by silent lines put in anywhere.  If the lines that follow
are numbered from the first argument on, then the last argument holds the numbers under which the
lines of the first list are found again.
-/
inductive Edited : Nat → List (List Char) → List (List Char) → List Nat → Prop
  | nil (start : Nat) : Edited start [] [] []
  /-- A line is edited. -/
  | line {start : Nat} {line edited : List Char} {rest others : List (List Char)}
    {numbers : List Nat} (hline : LineEdited line edited)
    (h : Edited (start + 1) rest others numbers) :
    Edited start (line :: rest) (edited :: others) (start :: numbers)
  /-- A silent line is put in. -/
  | insert {start : Nat} {silent : List Char} {rest others : List (List Char)}
    {numbers : List Nat} (hsilent : IsSilent silent)
    (h : Edited (start + 1) rest others numbers) : Edited start rest (silent :: others) numbers

namespace Edited

variable {start : Nat} {lines edited : List (List Char)} {numbers : List Nat}

/-- Lines are found under their own numbers if nothing is edited. -/
theorem refl (start : Nat) (lines : List (List Char)) :
    Edited start lines lines (List.range' start lines.length) := by
  induction lines generalizing start with
  | nil => exact .nil start
  | cons line rest ih => exact .line .refl (ih (start + 1))

/-- Under the number of a line there is an edit of that line. -/
theorem corresponds (h : Edited start lines edited numbers) {index number : Nat}
    (hnumber : numbers[index]? = some number) :
    ∃ line found, lines[index]? = some line ∧ start ≤ number ∧
      edited[number - start]? = some found ∧ LineEdited line found := by
  induction h generalizing index with
  | nil start => cases hnumber
  | @line start first firstEdited rest others numbers hline h ih =>
    cases index with
    | zero =>
      cases hnumber
      exact ⟨first, firstEdited, rfl, Nat.le_refl _, by rw [Nat.sub_self]; rfl, hline⟩
    | succ index =>
      obtain ⟨line, found, hlines, hle, hfound, hedited⟩ := ih hnumber
      have hplace : number - start = number - (start + 1) + 1 := by omega
      refine ⟨line, found, hlines, Nat.le_of_succ_le hle, ?_, hedited⟩
      rw [hplace, List.getElem?_cons_succ, hfound]
  | @insert start silent rest others numbers hsilent h ih =>
    obtain ⟨line, found, hlines, hle, hfound, hedited⟩ := ih hnumber
    have hplace : number - start = number - (start + 1) + 1 := by omega
    refine ⟨line, found, hlines, Nat.le_of_succ_le hle, ?_, hedited⟩
    rw [hplace, List.getElem?_cons_succ, hfound]

end Edited

end BusSchema
