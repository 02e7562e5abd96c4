import BusSchema.Proofs.Results
import BusSchema.Proofs.Text.Numeral
import BusSchema.Schema.Literal

/-!
# Integer literals

A literal of an integer type is a sign if the type is signed, an announcement of the radix if it is
not ten, and digits that denote the magnitude.  Plus signs are looked for twice: in front of the
announcement, and once more in front of the digits, where one is skipped as in any numeral.
`Literal.integers_eq_ok_iff` says which literals are read, and as which numbers.

So a plus behind another sign or an announcement, where it means nothing, is not refused
(`Literal.plus_before_digits`).  All other literals are the expected ones.
-/

namespace BusSchema

namespace Literal

/-- What may announce the radix of a literal, and the radix; nothing announces ten. -/
def announcements : List (List Char × Nat) :=
  [([], 10), (['0', 'x'], 16), (['0', 'X'], 16), (['0', 'b'], 2), (['0', 'B'], 2),
    (['0', 'o'], 8), (['0', 'O'], 8)]

/--
The text is an announcement, something before the digits, and digits of the announced radix that
denote the number, which is below `2 ^ 64`.
-/
def IsMagnitude (text before : List Char) (n : Nat) : Prop :=
  n < twoPow 64 ∧ ∃ announced ∈ announcements, ∃ digits, text = announced.1 ++ before ++ digits ∧
    Numeral.IsDigits announced.2 digits ∧ n = Numeral.value announced.2 digits

/-- The text is one plus sign at most and decimal digits, or an announcement and digits. -/
def IsNatural (text : List Char) (n : Nat) : Prop :=
  IsMagnitude text [] n ∨ ∃ digits, text = '+' :: digits ∧ n < twoPow 64 ∧
    Numeral.IsDigits 10 digits ∧ n = Numeral.value 10 digits

/-- The text is one sign at most and a magnitude, and denotes the number, which fits in 64 bits. -/
def IsInteger (text before : List Char) (v : Int) : Prop :=
  (-(twoPow 63 : Int) ≤ v ∧ v < (twoPow 63 : Int)) ∧
    ∃ sign ∈ [[], ['+'], ['-']], ∃ rest n, text = sign ++ rest ∧ IsMagnitude rest before n ∧
      v = if sign = ['-'] then -(n : Int) else n

/-! ## Magnitudes -/

section Magnitudes

variable {text digits before : List Char} {announced : List Char × Nat} {n : Nat}

theorem radix_pos (h : announced ∈ announcements) : 0 < announced.2 := by
  revert announced
  decide

/-- What is split off a text is an announcement. -/
theorem splitRadix_mem (text : List Char) :
    ∃ announced ∈ announcements, ∃ rest, text = announced.1 ++ rest ∧
      splitRadix text = (announced.2, rest) := by
  unfold splitRadix announcements
  split <;> simp

/-- Nothing is split off decimal digits. -/
theorem splitRadix_digits {plus : List Char} (hplus : plus ∈ Numeral.plusSigns)
    (hdigits : Numeral.IsDigits 10 digits) :
    splitRadix (plus ++ digits) = (10, plus ++ digits) := by
  -- The second character of an announcement is a letter, and none of the digits is one.
  have hletter : ∀ c ∈ ['x', 'X', 'b', 'B', 'o', 'O'], c ∉ plus ++ digits := by
    intro c hc hmem
    have hnone : ∀ c ∈ ['x', 'X', 'b', 'B', 'o', 'O'], Numeral.digitOf? 10 c = none := by
      simp only [List.forall_mem_cons]
      exact ⟨rfl, rfl, rfl, rfl, rfl, rfl, nofun⟩
    rcases List.mem_append.mp hmem with hsign | hdigit
    · simp only [Numeral.plusSigns, List.mem_cons, List.not_mem_nil, or_false] at hplus
      rcases hplus with rfl | rfl
      · cases hsign
      · rw [List.mem_singleton.mp hsign] at hc
        exact absurd hc (by decide)
    · exact hdigits.not_mem (hnone c hc) hdigit
  unfold splitRadix
  split <;> simp_all

/-- An announcement is split off the text that it stands before. -/
theorem splitRadix_append (h : announced ∈ announcements) {plus : List Char}
    (hplus : plus ∈ Numeral.plusSigns) (hdigits : Numeral.IsDigits announced.2 digits) :
    splitRadix (announced.1 ++ (plus ++ digits)) = (announced.2, plus ++ digits) := by
  simp only [announcements, List.mem_cons, List.not_mem_nil, or_false] at h
  rcases h with rfl | rfl | rfl | rfl | rfl | rfl | rfl
  · have hsplit : splitRadix (plus ++ digits) = (10, plus ++ digits) :=
      splitRadix_digits hplus hdigits
    exact hsplit
  all_goals rfl

theorem readMagnitude_eq_ok_iff :
    readMagnitude text = .ok n ↔ ∃ plus ∈ Numeral.plusSigns, IsMagnitude text plus n := by
  have hlimit : 0 < twoPow 64 := by decide
  constructor
  · intro h
    obtain ⟨announced, hmem, rest, htext, hsplit⟩ := splitRadix_mem text
    rw [readMagnitude, hsplit, mapError_eq_ok_iff,
      Numeral.read_eq_ok_iff (radix_pos hmem) hlimit] at h
    obtain ⟨plus, hplus, digits, hrest, hdigits, hvalue, hn⟩ := h
    refine ⟨plus, hplus, hn, announced, hmem, digits, ?_, hdigits, hvalue⟩
    rw [htext, hrest, List.append_assoc]
  · rintro ⟨plus, hplus, hn, announced, hmem, digits, htext, hdigits, hvalue⟩
    rw [htext, List.append_assoc, readMagnitude, splitRadix_append hmem hplus hdigits,
      mapError_eq_ok_iff, Numeral.read_eq_ok_iff (radix_pos hmem) hlimit]
    exact ⟨plus, hplus, digits, rfl, hdigits, hvalue, hn⟩

/-- A plus before the digits that is the first character is the sign of a decimal numeral. -/
theorem digits_of_isMagnitude_plus (h : IsMagnitude text ['+'] n) (hplus : '+' ∉ text.tail) :
    ∃ digits, text = '+' :: digits ∧ n < twoPow 64 ∧ Numeral.IsDigits 10 digits ∧
      n = Numeral.value 10 digits := by
  obtain ⟨hn, announced, hmem, digits, rfl, hdigits, hvalue⟩ := h
  simp only [announcements, List.mem_cons, List.not_mem_nil, or_false] at hmem
  rcases hmem with rfl | rfl | rfl | rfl | rfl | rfl | rfl
  · exact ⟨digits, rfl, hn, hdigits, hvalue⟩
  all_goals exact absurd (by simp) hplus

theorem isMagnitude_of_digits (hn : n < twoPow 64) (hdigits : Numeral.IsDigits 10 digits)
    (hvalue : n = Numeral.value 10 digits) (plus : List Char) :
    IsMagnitude (plus ++ digits) plus n :=
  ⟨hn, ([], 10), List.mem_cons_self, digits, rfl, hdigits, hvalue⟩

/-- Without a plus behind its first character, a magnitude is a natural number as expected. -/
theorem exists_isMagnitude_iff (hplus : '+' ∉ text.tail) :
    (∃ plus ∈ Numeral.plusSigns, IsMagnitude text plus n) ↔ IsNatural text n := by
  simp only [Numeral.plusSigns, List.mem_cons, List.not_mem_nil, or_false, exists_eq_or_imp,
    exists_eq_left]
  refine or_congr_right ⟨fun h => digits_of_isMagnitude_plus h hplus, ?_⟩
  rintro ⟨digits, rfl, hn, hdigits, hvalue⟩
  exact isMagnitude_of_digits hn hdigits hvalue ['+']

theorem plus_not_mem (h : IsMagnitude text [] n) : '+' ∉ text := by
  obtain ⟨-, announced, hmem, digits, rfl, hdigits, -⟩ := h
  have hannounced : ∀ announced ∈ announcements, '+' ∉ announced.1 := by decide
  rw [List.append_nil, List.mem_append, not_or]
  exact ⟨hannounced announced hmem, hdigits.not_mem (Numeral.digitOf?_plus announced.2)⟩

end Magnitudes

/-! ## Signs -/

section Signs

variable {text : List Char} {n : Nat} {v : Int}

/-- What is split off a text is a sign. -/
theorem splitSign_mem (text : List Char) :
    ∃ sign ∈ [[], ['+'], ['-']], ∃ rest, text = sign ++ rest ∧
      Decimal.splitSign text = (decide (sign = ['-']), rest) := by
  unfold Decimal.splitSign
  split <;> simp

theorem splitSign_digits {digits : List Char} (h : Numeral.IsDigits 10 digits) :
    Decimal.splitSign digits = (false, digits) := by
  have hplus : '+' ∉ digits := h.not_mem rfl
  have hminus : '-' ∉ digits := h.not_mem rfl
  unfold Decimal.splitSign
  split <;> simp_all

/-- A magnitude is split at most into a plus and decimal digits, and reads the same without it. -/
theorem readMagnitude_splitSign {plus : List Char} (hplus : plus ∈ Numeral.plusSigns)
    (h : IsMagnitude text plus n) :
    ∃ rest, Decimal.splitSign text = (false, rest) ∧ readMagnitude rest = .ok n := by
  have hwhole : readMagnitude text = .ok n := readMagnitude_eq_ok_iff.mpr ⟨plus, hplus, h⟩
  obtain ⟨hn, announced, hmem, digits, rfl, hdigits, hvalue⟩ := h
  simp only [announcements, List.mem_cons, List.not_mem_nil, or_false] at hmem
  rcases hmem with rfl | rfl | rfl | rfl | rfl | rfl | rfl
  · have hdecimal := readMagnitude_eq_ok_iff.mpr
      ⟨[], List.mem_cons_self, isMagnitude_of_digits hn hdigits hvalue []⟩
    simp only [Numeral.plusSigns, List.mem_cons, List.not_mem_nil, or_false] at hplus
    rcases hplus with rfl | rfl
    · exact ⟨digits, splitSign_digits hdigits, hdecimal⟩
    · exact ⟨digits, rfl, hdecimal⟩
  all_goals exact ⟨_, rfl, hwhole⟩

theorem readSigned_eq_ok_iff :
    readSigned text = .ok v ↔ ∃ plus ∈ Numeral.plusSigns, IsInteger text plus v := by
  have hread : ∀ {negative rest}, Decimal.splitSign text = (negative, rest) →
      (readSigned text = .ok v ↔ ∃ n, readMagnitude rest = .ok n ∧
        v = (if negative then -(n : Int) else n) ∧ -(twoPow 63 : Int) ≤ v ∧
          v < (twoPow 63 : Int)) := by
    intro negative rest hsplit
    rw [readSigned, hsplit]
    dsimp only
    rw [bind_eq_ok_iff]
    refine exists_congr fun n => and_congr_right fun _ => ?_
    generalize (if negative then -(n : Int) else n) = signed
    split
    · next hfits =>
      constructor
      · rintro ⟨⟩
        exact ⟨rfl, hfits⟩
      · rintro ⟨rfl, -⟩
        rfl
    · next hwide =>
      constructor
      · nofun
      · rintro ⟨rfl, hfits⟩
        exact absurd hfits hwide
  constructor
  · intro h
    obtain ⟨sign, hsign, rest, htext, hsplit⟩ := splitSign_mem text
    obtain ⟨n, hn, hv, hfits⟩ := (hread hsplit).mp h
    obtain ⟨plus, hplus, hmagnitude⟩ := readMagnitude_eq_ok_iff.mp hn
    refine ⟨plus, hplus, hfits, sign, hsign, rest, n, htext, hmagnitude, ?_⟩
    rw [hv]
    simp only [decide_eq_true_eq]
  · rintro ⟨plus, hplus, hfits, sign, hsign, rest, n, rfl, hmagnitude, hv⟩
    simp only [List.mem_cons, List.not_mem_nil, or_false] at hsign
    rcases hsign with rfl | rfl | rfl
    · obtain ⟨_, hsplit, hn⟩ := readMagnitude_splitSign hplus hmagnitude
      exact (hread hsplit).mpr ⟨n, hn, hv, hfits⟩
    all_goals
      have hn := readMagnitude_eq_ok_iff.mpr ⟨plus, hplus, hmagnitude⟩
      exact (hread rfl).mpr ⟨n, hn, hv, hfits⟩

/-- Without a plus behind its first character, an integer is a sign and a magnitude as expected. -/
theorem exists_isInteger_iff (hplus : '+' ∉ text.tail) :
    (∃ plus ∈ Numeral.plusSigns, IsInteger text plus v) ↔ IsInteger text [] v := by
  simp only [Numeral.plusSigns, List.mem_cons, List.not_mem_nil, or_false, exists_eq_or_imp,
    exists_eq_left]
  refine or_iff_left_of_imp ?_
  rintro ⟨hfits, sign, hsign, rest, n, rfl, hmagnitude, hv⟩
  have hmem : '+' ∈ rest := by
    obtain ⟨-, announced, -, digits, rfl, -⟩ := hmagnitude
    simp
  simp only [List.mem_cons, List.not_mem_nil, or_false] at hsign
  rcases hsign with rfl | rfl | rfl
  · obtain ⟨digits, rfl, hn, hdigits, hvalue⟩ := digits_of_isMagnitude_plus hmagnitude hplus
    exact ⟨hfits, ['+'], by simp, digits, n, rfl, isMagnitude_of_digits hn hdigits hvalue [], hv⟩
  all_goals exact absurd hmem hplus

end Signs

/-! ## Literals -/

section Literals

variable {literal : String} {value : ConstantValue}

/--
A literal of a signed type is a sign if any and a magnitude, and one of an unsigned type that does
not start with a quote is a magnitude, where a plus may stand before the digits.  If no plus stands
behind the first character, these are a sign, an announcement and digits in this order, and an
announcement or a plus and digits; the value is the number that they denote.
-/
theorem integers_eq_ok_iff :
    (read .signed literal = .ok value ↔ ∃ plus ∈ Numeral.plusSigns, ∃ v,
      IsInteger literal.toList plus v ∧ value = .signed v) ∧
    (literal.toList.head? ≠ some Text.singleQuote →
      (read .unsigned literal = .ok value ↔ ∃ plus ∈ Numeral.plusSigns, ∃ n,
        IsMagnitude literal.toList plus n ∧ value = .unsigned n)) ∧
    ('+' ∉ literal.toList.tail →
      (read .signed literal = .ok value ↔ ∃ v, IsInteger literal.toList [] v ∧ value = .signed v) ∧
      (literal.toList.head? ≠ some Text.singleQuote →
        (read .unsigned literal = .ok value ↔
          ∃ n, IsNatural literal.toList n ∧ value = .unsigned n))) := by
  have hsigned : read .signed literal = .ok value ↔ ∃ v, (∃ plus ∈ Numeral.plusSigns,
      IsInteger literal.toList plus v) ∧ value = .signed v := by
    simp only [read, map_eq_ok_iff, readSigned_eq_ok_iff, @eq_comm _ value]
  have hunsigned : literal.toList.head? ≠ some Text.singleQuote →
      (read .unsigned literal = .ok value ↔ ∃ n, (∃ plus ∈ Numeral.plusSigns,
        IsMagnitude literal.toList plus n) ∧ value = .unsigned n) := by
    intro hquote
    simp only [read, if_neg hquote, map_eq_ok_iff, readMagnitude_eq_ok_iff, @eq_comm _ value]
  refine ⟨?_, fun hquote => ?_, fun hplus => ⟨?_, fun hquote => ?_⟩⟩
  · rw [hsigned]
    exact ⟨fun ⟨v, ⟨plus, hplus, hv⟩, h⟩ => ⟨plus, hplus, v, hv, h⟩,
      fun ⟨plus, hplus, v, hv, h⟩ => ⟨v, ⟨plus, hplus, hv⟩, h⟩⟩
  · rw [hunsigned hquote]
    exact ⟨fun ⟨n, ⟨plus, hplus, hn⟩, h⟩ => ⟨plus, hplus, n, hn, h⟩,
      fun ⟨plus, hplus, n, hn, h⟩ => ⟨n, ⟨plus, hplus, hn⟩, h⟩⟩
  · simp only [hsigned, exists_isInteger_iff hplus]
  · simp only [hunsigned hquote, exists_isMagnitude_iff hplus]

end Literals

/-- The least signed literal and the greatest unsigned one, both in hexadecimal. -/
theorem integers_eq_ok_iff_limits :
    '+' ∉ "-0x8000000000000000".toList.tail ∧ '+' ∉ "0XffffFFFFffffFFFF".toList.tail ∧
      "0XffffFFFFffffFFFF".toList.head? ≠ some Text.singleQuote ∧
      read .signed "-0x8000000000000000" = .ok (.signed (-9223372036854775808)) ∧
      read .unsigned "0XffffFFFFffffFFFF" = .ok (.unsigned 18446744073709551615) := by
  have hleast : IsInteger "-0x8000000000000000".toList [] (-9223372036854775808) :=
    ⟨by decide, ['-'], by decide, "0x8000000000000000".toList, 9223372036854775808, by decide,
      ⟨by decide, (['0', 'x'], 16), by decide, "8000000000000000".toList, by decide,
        ⟨by decide, List.all_eq_true.mp rfl⟩, by decide⟩, by decide⟩
  have hgreatest : IsNatural "0XffffFFFFffffFFFF".toList 18446744073709551615 :=
    .inl ⟨by decide, (['0', 'X'], 16), by decide, "ffffFFFFffffFFFF".toList, by decide,
      ⟨by decide, List.all_eq_true.mp rfl⟩, by decide⟩
  have hsigned : '+' ∉ "-0x8000000000000000".toList.tail := by decide
  have hunsigned : '+' ∉ "0XffffFFFFffffFFFF".toList.tail := by decide
  have hquote : "0XffffFFFFffffFFFF".toList.head? ≠ some Text.singleQuote := by decide
  exact ⟨hsigned, hunsigned, hquote,
    (integers_eq_ok_iff.2.2 hsigned).1.mpr ⟨_, hleast, rfl⟩,
    ((integers_eq_ok_iff.2.2 hunsigned).2 hquote).mpr ⟨_, hgreatest, rfl⟩⟩

/-- A plus between a sign and the digits is skipped, and so is one behind an announcement. -/
theorem plus_before_digits :
    (read .signed "-+7" = .ok (.signed (-7)) ∧ ¬∃ v, IsInteger "-+7".toList [] v) ∧
      read .unsigned "0x+F" = .ok (.unsigned 15) ∧ ¬∃ n, IsNatural "0x+F".toList n := by
  refine ⟨⟨by decide, ?_⟩, by decide, ?_⟩
  · rintro ⟨v, -, sign, hsign, rest, n, htext, hmagnitude, -⟩
    -- The plus is no part of the sign, and a magnitude has none.
    have hin : '+' ∈ sign ++ rest := by
      rw [← htext]
      decide
    have hmem : '+' ∈ rest := by
      simp only [List.mem_cons, List.not_mem_nil, or_false] at hsign
      rcases hsign with rfl | rfl | rfl
      · exact hin
      · exact absurd htext (by simp)
      · simpa using hin
    exact plus_not_mem hmagnitude hmem
  · rintro ⟨n, hmagnitude | ⟨digits, htext, -⟩⟩
    · exact plus_not_mem hmagnitude (by decide)
    · exact absurd htext (by simp)

end Literal

end BusSchema
