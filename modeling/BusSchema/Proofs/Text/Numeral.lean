import BusSchema.Proofs.Results
import BusSchema.Text.Numeral
import Mathlib.Data.Nat.Digits.Lemmas
import Mathlib.Tactic.Ring

/-!
# The numbers that digits denote

Digits of a radix denote a number by their places (`Numeral.value`).  Reading a numeral gives the
number that its digits denote, and succeeds exactly on digits of the radix behind one plus sign at
most, if the number is below the limit (`Numeral.read_eq_ok_iff`).  The decimal text of a number is
such a numeral (`Numeral.read32?_toString`).
-/

namespace BusSchema

theorem isDigit_of_mem_toString {n : Nat} {c : Char} (h : c ∈ (toString n).toList) :
    c.isDigit = true := by
  have hdigits : (toString n).toList = Nat.toDigits 10 n := Nat.toList_repr
  rw [hdigits] at h
  exact Nat.isDigit_of_mem_toDigits (by decide) (by decide) h

namespace Numeral

/-- The text is one or more digits of the radix. -/
def IsDigits (radix : Nat) (text : List Char) : Prop :=
  text ≠ [] ∧ ∀ c ∈ text, (digitOf? radix c).isSome = true

/-- The number that digits denote: the last digit counts ones. -/
def value (radix : Nat) (digits : List Char) : Nat :=
  Nat.ofDigits radix (digits.reverse.map fun c => (digit? c).getD 0)

/-- A plus sign if any, which may stand before digits. -/
def plusSigns : List (List Char) := [[], ['+']]

section Digits

variable {radix limit n m d : Nat} {c : Char} {digits text : List Char}

theorem digit?_of_digitOf? (h : digitOf? radix c = some d) : digit? c = some d :=
  (Option.filter_eq_some_iff.mp h).1

theorem value_cons (h : digitOf? radix c = some d) :
    value radix (c :: digits) = d * radix ^ digits.length + value radix digits := by
  unfold value
  rw [List.reverse_cons, List.map_append, Nat.ofDigits_append, List.map_singleton,
    digit?_of_digitOf? h, Nat.ofDigits_singleton, List.length_map, List.length_reverse]
  exact (Nat.add_comm _ _).trans (congrArg (· + _) (Nat.mul_comm _ _))

/--
Further digits move a number up by their places and add what they denote; the result is below the
limit exactly if every number on the way is.
-/
theorem readDigits_eq_ok_iff (hradix : 0 < radix) (hn : n < limit) :
    readDigits radix limit digits n = .ok m ↔
      (∀ c ∈ digits, (digitOf? radix c).isSome = true) ∧
        m = n * radix ^ digits.length + value radix digits ∧ m < limit := by
  induction digits generalizing n with
  | nil =>
    rw [readDigits, Except.ok.injEq]
    simp only [List.not_mem_nil, false_implies, implies_true, true_and, List.length_nil,
      Nat.pow_zero, Nat.mul_one, value, List.reverse_nil, List.map_nil, Nat.ofDigits_nil,
      Nat.add_zero]
    constructor
    · rintro rfl
      exact ⟨rfl, hn⟩
    · exact fun h => h.1.symm
  | cons c rest ih =>
    rw [readDigits]
    cases hdigit : digitOf? radix c with
    | none => simp [hdigit]
    | some d =>
      have hplaces : n * radix ^ (c :: rest).length + value radix (c :: rest) =
          (radix * n + d) * radix ^ rest.length + value radix rest := by
        rw [value_cons hdigit, List.length_cons]
        ring
      rw [hplaces, List.forall_mem_cons, hdigit]
      simp only [Option.isSome_some, true_and]
      split
      · next hnext => exact ih hnext
      · next hlarge =>
        -- The number is too large already, and further digits do not make it smaller.
        have hgrows : radix * n + d ≤ (radix * n + d) * radix ^ rest.length :=
          Nat.le_mul_of_pos_right _ (Nat.pow_pos hradix)
        constructor
        · exact nofun
        · rintro ⟨-, rfl, hm⟩
          omega

theorem digitOf?_plus (radix : Nat) : digitOf? radix '+' = none := rfl

theorem IsDigits.not_mem (hdigits : IsDigits radix digits) (h : digitOf? radix c = none) :
    c ∉ digits := by
  intro hmem
  have hsome := hdigits.2 c hmem
  rw [h] at hsome
  cases hsome

theorem not_isDigits_plus : ¬IsDigits radix ('+' :: digits) :=
  fun h => h.not_mem (digitOf?_plus radix) List.mem_cons_self

/-- Digits are read from zero on, and there has to be one. -/
theorem readDigits_zero_eq_ok_iff (hradix : 0 < radix) (hlimit : 0 < limit) (hne : digits ≠ []) :
    readDigits radix limit digits 0 = .ok n ↔
      IsDigits radix digits ∧ n = value radix digits ∧ n < limit := by
  rw [readDigits_eq_ok_iff hradix hlimit, Nat.zero_mul, Nat.zero_add, IsDigits, and_iff_right hne]

/-- A numeral is digits behind one plus sign at most, and is read as the number that they denote. -/
theorem read_eq_ok_iff (hradix : 0 < radix) (hlimit : 0 < limit) :
    read radix limit text = .ok n ↔
      ∃ plus ∈ plusSigns, ∃ digits, text = plus ++ digits ∧ IsDigits radix digits ∧
        n = value radix digits ∧ n < limit := by
  have hsigns : (∃ plus ∈ plusSigns, ∃ digits, text = plus ++ digits ∧ IsDigits radix digits ∧
      n = value radix digits ∧ n < limit) ↔
        (IsDigits radix text ∧ n = value radix text ∧ n < limit) ∨
          ∃ digits, text = '+' :: digits ∧ IsDigits radix digits ∧ n = value radix digits ∧
            n < limit := by
    simp [plusSigns]
  rw [hsigns]
  unfold read
  split
  · simp [IsDigits]
  · simp [IsDigits, digitOf?_plus]
  · next digits hne =>
    rw [readDigits_zero_eq_ok_iff hradix hlimit fun h => hne (by rw [h])]
    simp [not_isDigits_plus]
  · next hne _ hplus =>
    rw [readDigits_zero_eq_ok_iff hradix hlimit hne]
    refine (or_iff_left ?_).symm
    rintro ⟨digits, rfl, -⟩
    exact hplus digits rfl

end Digits

/-! ## Decimal text -/

theorem digitOf?_ten_of_isDigit {c : Char} (h : c.isDigit = true) :
    digitOf? 10 c = some (c.toNat - '0'.toNat) := by
  have hrange : '0' ≤ c ∧ c ≤ '9' := by
    rw [Char.isDigit, Bool.and_eq_true, decide_eq_true_eq, decide_eq_true_eq] at h
    exact h
  have hupper : c.toNat ≤ 57 := hrange.2
  have hdigit : digit? c = some (c.toNat - '0'.toNat) := if_pos hrange
  have hzero : '0'.toNat = 48 := rfl
  rw [digitOf?, hdigit, Option.filter_some, if_pos]
  rw [decide_eq_true_eq]
  omega

theorem isDigits_toString (n : Nat) : IsDigits 10 (toString n).toList := by
  have hdigits : (toString n).toList = Nat.toDigits 10 n := Nat.toList_repr
  refine ⟨hdigits ▸ Nat.toDigits_ne_nil, fun c hc => ?_⟩
  rw [digitOf?_ten_of_isDigit (isDigit_of_mem_toString hc)]
  rfl

theorem ofDigitChars_eq {digits : List Char} (h : ∀ c ∈ digits, c.isDigit = true) (n : Nat) :
    Nat.ofDigitChars 10 digits n = n * 10 ^ digits.length + value 10 digits := by
  induction digits generalizing n with
  | nil => simp [value]
  | cons c rest ih =>
    obtain ⟨hc, hrest⟩ := List.forall_mem_cons.mp h
    rw [Nat.ofDigitChars_cons, ih hrest, value_cons (digitOf?_ten_of_isDigit hc), List.length_cons]
    ring

/-- The decimal text of a number denotes it. -/
theorem value_toString (n : Nat) : value 10 (toString n).toList = n := by
  have hdigits : (toString n).toList = Nat.toDigits 10 n := Nat.toList_repr
  have hvalue := ofDigitChars_eq (fun c => isDigit_of_mem_toString (n := n) (c := c)) 0
  rw [Nat.zero_mul, Nat.zero_add] at hvalue
  rw [← hvalue, hdigits, Nat.ofDigitChars_ten_toDigits]

/-- Digits are the decimal numeral of the number that they denote, if it is below `2 ^ 32`. -/
theorem read32?_eq_some_iff {text : String} (h : IsDigits 10 text.toList) {n : Nat} :
    read32? text = some n ↔ n = value 10 text.toList ∧ n < twoPow 32 := by
  rw [read32?, toOption_eq_some_iff, read_eq_ok_iff (by decide) (by decide)]
  constructor
  · rintro ⟨plus, hplus, digits, htext, hdigits, hvalue, hn⟩
    simp only [plusSigns, List.mem_cons, List.not_mem_nil, or_false] at hplus
    rcases hplus with rfl | rfl
    · rw [List.nil_append] at htext
      exact ⟨htext ▸ hvalue, hn⟩
    · rw [htext] at h
      exact absurd h not_isDigits_plus
  · rintro ⟨hvalue, hn⟩
    exact ⟨[], List.mem_cons_self, _, rfl, h, hvalue, hn⟩

theorem isDigit_of_digitOf?_ten {c : Char} (h : (digitOf? 10 c).isSome = true) :
    c.isDigit = true := by
  obtain ⟨d, hd⟩ := Option.isSome_iff_exists.mp h
  obtain ⟨hdigit, hsmall⟩ := Option.filter_eq_some_iff.mp hd
  rw [decide_eq_true_eq] at hsmall
  unfold digit? at hdigit
  split at hdigit
  · next hrange =>
    rw [Char.isDigit, Bool.and_eq_true, decide_eq_true_eq, decide_eq_true_eq]
    exact hrange
  · split at hdigit
    · cases hdigit
      omega
    · split at hdigit
      · cases hdigit
        omega
      · cases hdigit

/-- A numeral starts with a plus sign or a digit. -/
theorem read32?_eq_none {text : String} {c : Char} (hc : c ∈ text.toList.head?)
    (hplus : c ≠ '+') (hdigit : c.isDigit = false) : read32? text = none := by
  rw [Option.eq_none_iff_forall_ne_some]
  intro n hread
  rw [read32?, toOption_eq_some_iff, read_eq_ok_iff (by decide) (by decide)] at hread
  obtain ⟨plus, hsign, digits, htext, hdigits, -⟩ := hread
  simp only [plusSigns, List.mem_cons, List.not_mem_nil, or_false] at hsign
  rw [htext] at hc
  rcases hsign with rfl | rfl
  · have hmem : c ∈ digits := List.mem_of_mem_head? hc
    rw [isDigit_of_digitOf?_ten (hdigits.2 c hmem)] at hdigit
    cases hdigit
  · cases hc
    exact hplus rfl

theorem read32?_toString {n : Nat} (hn : n < twoPow 32) : read32? (toString n) = some n :=
  (read32?_eq_some_iff (isDigits_toString n)).mpr ⟨(value_toString n).symm, hn⟩

end Numeral

end BusSchema
