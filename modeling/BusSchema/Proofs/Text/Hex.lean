import BusSchema.Proofs.Text.Numeral
import BusSchema.Text.Hex
import Mathlib.Algebra.Group.Nat.Even

/-!
# Hexadecimal text as bytes

A digit is one of sixteen characters in either case, and its value is its place among them.
Decoding succeeds exactly on an even number of digits, with the values of the pairs of digits, and
its only errors are a character that is no digit and an odd number of digits
(`Hex.decode_characterized`).  All characters are known to be digits before the text is cut, so each
takes one byte and no cut is inside one (`Hex.readBytes_of_digits`).
-/

namespace BusSchema

namespace Hex

/-- The sixteen digits in lower case, each at the place of its value. -/
def alphabet : List Char := "0123456789abcdef".toList

/-- A digit of either case. -/
def IsDigit (c : Char) : Prop := c.toLower ∈ alphabet

instance (c : Char) : Decidable (IsDigit c) := inferInstanceAs (Decidable (_ ∈ _))

/-- The value of a digit. -/
def digitValue (c : Char) : Nat := alphabet.idxOf c.toLower

/-- The values of the pairs of digits, the first digit of each pair counting sixteens. -/
def pairValues : List Char → List UInt8
  | high :: low :: rest => UInt8.ofNat (16 * digitValue high + digitValue low) :: pairValues rest
  | _ => []

/-- A text arises from another by blanks and colons put in anywhere. -/
inductive Spaced : List Char → List Char → Prop
  | nil : Spaced [] []
  | digit (c : Char) {rendered text : List Char} (h : Spaced rendered text) :
    Spaced (c :: rendered) (c :: text)
  | separator (c : Char) {rendered text : List Char} (hc : Text.isBlank c = true ∨ c = ':')
    (h : Spaced rendered text) : Spaced rendered (c :: text)

/-! ## Digits -/

section Digits

variable {c : Char}

/-- Every character of the alphabet and its upper case is ASCII. -/
theorem IsDigit.toNat_lt (h : IsDigit c) : c.toNat < 128 := by
  have hall : alphabet.all (fun d => decide (d.toNat < 128)) = true := by decide
  have hc : c.toLower.toNat < 128 := of_decide_eq_true (List.all_eq_true.mp hall _ h)
  by_cases hupper : c.val ≥ 'A'.val ∧ c.val ≤ 'Z'.val
  · have hle : c.toNat ≤ 'Z'.toNat := hupper.2
    exact Nat.lt_of_le_of_lt hle (by decide)
  · have hsame : c.toLower = c := dif_neg hupper
    rwa [hsame] at hc

theorem digit?_eq_none (h : 128 ≤ c.toNat) : Numeral.digit? c = none := by
  have hbehind : ∀ last : Char, last.toNat < 128 → ¬c ≤ last := by
    intro last hlast hle
    have hc : c.toNat ≤ last.toNat := hle
    omega
  rw [Numeral.digit?, if_neg fun h => hbehind '9' (by decide) h.2,
    if_neg fun h => hbehind 'z' (by decide) h.2, if_neg fun h => hbehind 'Z' (by decide) h.2]

/-- The numeral reader knows the same digits with the same values. -/
theorem digitOf?_eq (c : Char) :
    Numeral.digitOf? 16 c = if IsDigit c then some (digitValue c) else none := by
  by_cases hc : c.toNat < 128
  · have hascii : ∀ n < 128, Numeral.digitOf? 16 (Char.ofNat n) =
        if IsDigit (Char.ofNat n) then some (digitValue (Char.ofNat n)) else none := by
      decide +kernel
    have hcode := hascii c.toNat hc
    rwa [Char.ofNat_toNat] at hcode
  · rw [if_neg fun h => hc h.toNat_lt, Numeral.digitOf?, digit?_eq_none (Nat.le_of_not_lt hc)]
    rfl

theorem digitOf?_of_isDigit (h : IsDigit c) : Numeral.digitOf? 16 c = some (digitValue c) := by
  rw [digitOf?_eq, if_pos h]

theorem isNone_digitOf?_iff : (Numeral.digitOf? 16 c).isNone = true ↔ ¬IsDigit c := by
  rw [digitOf?_eq]
  split
  · next h => exact iff_of_false Bool.false_ne_true (not_not_intro h)
  · next h => exact iff_of_true rfl h

theorem digitValue_lt (h : IsDigit c) : digitValue c < 16 := List.idxOf_lt_length_of_mem h

theorem utf8Size_of_isDigit (h : IsDigit c) : c.utf8Size = 1 := by
  rw [Char.utf8Size_eq_one_iff, UInt32.le_iff_toNat_le]
  exact Nat.le_of_lt_succ h.toNat_lt

theorem not_separator_of_isDigit (h : IsDigit c) : Text.isBlank c = false ∧ c ≠ ':' := by
  have hascii : ∀ n < 128, IsDigit (Char.ofNat n) →
      Text.isBlank (Char.ofNat n) = false ∧ Char.ofNat n ≠ ':' := by
    decide +kernel
  have hcode := hascii c.toNat h.toNat_lt
  rw [Char.ofNat_toNat] at hcode
  exact hcode h

end Digits

/-! ## Cutting digits into bytes -/

section Reading

variable {high low : Char} {digits rest text : List Char}

theorem byteSize_of_digits (h : ∀ c ∈ digits, IsDigit c) :
    Text.byteSize digits = digits.length := by
  induction digits with
  | nil => rfl
  | cons c rest ih =>
    obtain ⟨hc, hrest⟩ := List.forall_mem_cons.mp h
    have htail : total (rest.map Char.utf8Size) = rest.length := ih hrest
    have hcons : Text.byteSize (c :: rest) = c.utf8Size + total (rest.map Char.utf8Size) := rfl
    rw [hcons, htail, utf8Size_of_isDigit hc, List.length_cons, Nat.add_comm]

/-- The two bytes that are cut off are two digits. -/
theorem splitBytes?_two (hhigh : IsDigit high) (hlow : IsDigit low) :
    Text.splitBytes? 2 (high :: low :: rest) = some ([high, low], rest) := by
  simp [Text.splitBytes?, utf8Size_of_isDigit hhigh, utf8Size_of_isDigit hlow]

theorem value_pair (hhigh : IsDigit high) (hlow : IsDigit low) :
    Numeral.value 16 [high, low] = 16 * digitValue high + digitValue low := by
  rw [Numeral.value_cons (digitOf?_of_isDigit hhigh), Numeral.value_cons (digitOf?_of_isDigit hlow)]
  simp [Numeral.value, Nat.mul_comm]

theorem read_pair (hhigh : IsDigit high) (hlow : IsDigit low) :
    Numeral.read 16 256 [high, low] = .ok (16 * digitValue high + digitValue low) := by
  have hdigits : Numeral.IsDigits 16 [high, low] := by
    refine ⟨List.cons_ne_nil _ _, ?_⟩
    simp [digitOf?_of_isDigit hhigh, digitOf?_of_isDigit hlow]
  have hfits : 16 * digitValue high + digitValue low < 256 := by
    have := digitValue_lt hhigh
    have := digitValue_lt hlow
    omega
  apply (Numeral.read_eq_ok_iff (by decide) (by decide)).mpr
  exact ⟨[], List.mem_cons_self, [high, low], rfl, hdigits, (value_pair hhigh hlow).symm, hfits⟩

/-- Twice as many digits as bytes are read as the values of their pairs. -/
theorem readBytes_of_digits {count : Nat} (hdigits : ∀ c ∈ digits, IsDigit c)
    (hlength : digits.length = 2 * count) : readBytes count digits = .ok (pairValues digits) := by
  induction count generalizing digits with
  | zero =>
    rw [Nat.mul_zero, List.length_eq_zero_iff] at hlength
    subst hlength
    rfl
  | succ count ih =>
    match digits, hlength with
    | high :: low :: rest, hlength =>
      obtain ⟨hhigh, hbehind⟩ := List.forall_mem_cons.mp hdigits
      obtain ⟨hlow, hrest⟩ := List.forall_mem_cons.mp hbehind
      have hcount : rest.length = 2 * count := by
        simp only [List.length_cons] at hlength
        omega
      simp only [readBytes, splitBytes?_two hhigh hlow, read_pair hhigh hlow, ih hrest hcount]
      rfl

/-- What is no digit is reported at its first occurrence. -/
theorem decode_of_not_isDigit (h : ∃ c ∈ significant text, ¬IsDigit c) :
    ∃ c ∈ significant text, ¬IsDigit c ∧ decode text = .error (.notADigit c) := by
  cases hfind : (significant text).find? fun c => (Numeral.digitOf? 16 c).isNone with
  | none =>
    obtain ⟨c, hmem, hc⟩ := h
    exact absurd (isNone_digitOf?_iff.mpr hc) (List.find?_eq_none.mp hfind c hmem)
  | some c =>
    have hnone : (Numeral.digitOf? 16 c).isNone = true :=
      List.find?_some (p := fun c => (Numeral.digitOf? 16 c).isNone) hfind
    refine ⟨c, List.mem_of_find?_eq_some hfind, isNone_digitOf?_iff.mp hnone, ?_⟩
    simp only [decode, hfind]

/-- Digits are decoded in pairs, if they are even in number. -/
theorem decode_of_digits (h : ∀ c ∈ significant text, IsDigit c) :
    decode text = if Even (significant text).length then .ok (pairValues (significant text))
      else .error .oddLength := by
  have hfind : ((significant text).find? fun c => (Numeral.digitOf? 16 c).isNone) = none := by
    apply List.find?_eq_none.mpr
    intro c hmem hc
    exact isNone_digitOf?_iff.mp hc (h c hmem)
  unfold decode
  simp only [hfind, byteSize_of_digits h, Nat.even_iff]
  split
  · next heven =>
    apply readBytes_of_digits h
    omega
  · rfl

end Reading

/-! ## Encoded bytes -/

section Encoding

variable {bytes : List UInt8} {rendered text : List Char}

/-- The sixteen characters that bytes are written with are the digits of the alphabet. -/
theorem digitChar_mem_alphabet :
    ∀ n < 16, Nat.digitChar n ∈ alphabet ∧ alphabet.idxOf (Nat.digitChar n) = n := by
  decide

theorem encode_cons (byte : UInt8) (bytes : List UInt8) :
    encode (byte :: bytes) =
      Nat.digitChar (byte.toNat / 16) :: Nat.digitChar (byte.toNat % 16) :: encode bytes := rfl

/-- The digits of bytes, in either case, are an even number and have the bytes as their values. -/
theorem pairValues_of_encode (h : rendered.map Char.toLower = encode bytes) :
    (∀ c ∈ rendered, IsDigit c) ∧ Even rendered.length ∧ pairValues rendered = bytes := by
  induction bytes generalizing rendered with
  | nil =>
    rw [List.map_eq_nil_iff.mp h]
    exact ⟨nofun, ⟨0, rfl⟩, rfl⟩
  | cons byte bytes ih =>
    rw [encode_cons] at h
    obtain ⟨high, behind, rfl, hhigh, h⟩ := List.map_eq_cons_iff.mp h
    obtain ⟨low, rest, rfl, hlow, h⟩ := List.map_eq_cons_iff.mp h
    obtain ⟨hdigits, heven, hvalues⟩ := ih h
    have hbyte : byte.toNat < 256 := byte.toNat_lt_size
    have hdiv := digitChar_mem_alphabet (byte.toNat / 16) (by omega)
    have hmod := digitChar_mem_alphabet (byte.toNat % 16) (by omega)
    rw [← hhigh] at hdiv
    rw [← hlow] at hmod
    refine ⟨List.forall_mem_cons.mpr ⟨hdiv.1, List.forall_mem_cons.mpr ⟨hmod.1, hdigits⟩⟩,
      heven.add even_two, ?_⟩
    rw [pairValues, hvalues, digitValue, digitValue, hdiv.2, hmod.2, Nat.div_add_mod,
      UInt8.ofNat_toNat]

/-- Blanks and colons put between digits are dropped again. -/
theorem significant_of_spaced (hdigits : ∀ c ∈ rendered, IsDigit c) (h : Spaced rendered text) :
    significant text = rendered := by
  induction h with
  | nil => rfl
  | digit c h ih =>
    obtain ⟨hc, hrest⟩ := List.forall_mem_cons.mp hdigits
    obtain ⟨hblank, hcolon⟩ := not_separator_of_isDigit hc
    unfold significant at ih ⊢
    rw [List.filter_cons_of_pos (by simp [hblank, hcolon]), ih hrest]
  | separator c hc h ih =>
    unfold significant at ih ⊢
    rw [List.filter_cons_of_neg (by rcases hc with hc | hc <;> simp [hc]), ih hdigits]

end Encoding

/--
Decoding a text gives bytes exactly if what is left of it without blanks and colons is an even
number of digits, and the bytes are the values of the pairs of digits.  Otherwise it reports a
character that is no digit or, if there is none, the odd number of digits, and never that it cut a
character.  So bytes are read back from their digits of either case, with any blanks and colons put
in.
-/
theorem decode_characterized (text : List Char) :
    (∀ bytes, decode text = .ok bytes ↔
      (∀ c ∈ significant text, IsDigit c) ∧ Even (significant text).length ∧
        bytes = pairValues (significant text)) ∧
    (∀ error, decode text = .error error →
      (∃ c ∈ significant text, ¬IsDigit c ∧ error = .notADigit c) ∨
        (∀ c ∈ significant text, IsDigit c) ∧ ¬Even (significant text).length ∧
          error = .oddLength) ∧
    ∀ bytes rendered, rendered.map Char.toLower = encode bytes → Spaced rendered text →
      decode text = .ok bytes := by
  refine ⟨fun bytes => ?_, fun error herror => ?_, fun bytes rendered hrendered hspaced => ?_⟩
  · by_cases hdigits : ∀ c ∈ significant text, IsDigit c
    · rw [decode_of_digits hdigits, and_iff_right hdigits]
      split
      · next heven => rw [and_iff_right heven, Except.ok.injEq, eq_comm]
      · next hodd => exact iff_of_false nofun fun h => hodd h.1
    · push Not at hdigits
      obtain ⟨c, hmem, hc, herror⟩ := decode_of_not_isDigit hdigits
      rw [herror]
      exact iff_of_false nofun fun h => hc (h.1 c hmem)
  · by_cases hdigits : ∀ c ∈ significant text, IsDigit c
    · rw [decode_of_digits hdigits] at herror
      split at herror
      · cases herror
      · next hodd => exact .inr ⟨hdigits, hodd, (Except.error.inj herror).symm⟩
    · push Not at hdigits
      obtain ⟨c, hmem, hc, hfirst⟩ := decode_of_not_isDigit hdigits
      rw [hfirst] at herror
      exact .inl ⟨c, hmem, hc, (Except.error.inj herror).symm⟩
  · obtain ⟨hdigits, heven, hvalues⟩ := pairValues_of_encode hrendered
    have hsignificant := significant_of_spaced hdigits hspaced
    rw [decode_of_digits (hsignificant.symm ▸ hdigits), hsignificant, if_pos heven, hvalues]

/-- Bytes written in both cases, in groups set apart by a colon, a space and a no-break space. -/
theorem decode_spaced_groups :
    ("E1fF0a".toList.map Char.toLower = encode [0xE1, 0xFF, 0x0A] ∧
      Spaced "E1fF0a".toList ['E', '1', ':', 'f', ' ', 'F', '\u00A0', '0', 'a']) ∧
    decode ['E', '1', ':', 'f', ' ', 'F', '\u00A0', '0', 'a'] = .ok [0xE1, 0xFF, 0x0A] := by
  have hrendered : "E1fF0a".toList.map Char.toLower = encode [0xE1, 0xFF, 0x0A] := by decide
  have hspaced : Spaced "E1fF0a".toList ['E', '1', ':', 'f', ' ', 'F', '\u00A0', '0', 'a'] :=
    .digit 'E' (.digit '1' (.separator ':' (.inr rfl) (.digit 'f' (.separator ' ' (.inl (by decide))
      (.digit 'F' (.separator '\u00A0' (.inl (by decide)) (.digit '0' (.digit 'a' .nil))))))))
  exact ⟨⟨hrendered, hspaced⟩, (decode_characterized _).2.2 _ _ hrendered hspaced⟩

end Hex

end BusSchema
