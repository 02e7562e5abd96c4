import BusSchema.Proofs.Results
import BusSchema.Schema.Draft
import Mathlib.Data.List.TakeWhile

/-!
# Names and numbers as written

The name of an attribute is a word that does not start with a digit (`isName_of_read?`), and the
bound of an array gives it a positive 32-bit number of elements (`BoundExpr.size_of_elaborate`).
-/

namespace BusSchema

/-! ## Names -/

namespace Statement

/-- The text is a letter or underscore and letters, digits and underscores behind it. -/
def IsName (name : String) : Prop :=
  (∃ c ∈ name.toList.head?, isWordStart c = true) ∧ ∀ c ∈ name.toList, isWordChar c = true

theorem IsName.ne_empty {name : String} (h : IsName name) : name ≠ "" := by
  rintro rfl
  obtain ⟨c, hc, -⟩ := h.1
  cases hc

theorem isWordChar_of_isWordStart {c : Char} (h : isWordStart c = true) :
    isWordChar c = true := by
  unfold isWordStart at h
  unfold isWordChar Char.isAlphanum
  rw [Bool.or_eq_true] at h
  rcases h with h | h <;> simp [h]

theorem toNat_of_isWordStart {c : Char} (h : isWordStart c = true) :
    65 ≤ c.toNat ∧ c.toNat ≤ 122 := by
  have hclass : ((c.isUpper || c.isLower) || decide (c = '_')) = true := h
  simp only [Bool.or_eq_true, decide_eq_true_eq] at hclass
  rcases hclass with (hupper | hlower) | rfl
  · have hrange : 65 ≤ c.toNat ∧ c.toNat ≤ 90 := of_decide_eq_true hupper
    omega
  · have hends : (decide (97 ≤ c.toNat) && decide (c.toNat ≤ 122)) = true := hlower
    rw [Bool.and_eq_true, decide_eq_true_eq, decide_eq_true_eq] at hends
    omega
  · decide

theorem isName_of_readName? {text rest : List Char} {name : String}
    (h : readName? text = some (name, rest)) : IsName name := by
  unfold readName? at h
  split at h
  · next c tail =>
    split at h
    · next hstart =>
      have hrun : (c :: tail).takeWhile isWordChar = c :: tail.takeWhile isWordChar :=
        List.takeWhile_cons_of_pos (isWordChar_of_isWordStart hstart)
      rw [readRun?, hrun] at h
      obtain ⟨rfl, -⟩ := Prod.mk.inj (Option.some.inj h)
      rw [IsName, String.toList_ofList]
      refine ⟨⟨c, rfl, hstart⟩, fun d hd => ?_⟩
      rw [← hrun] at hd
      exact List.mem_takeWhile_imp hd
    · cases h
  · cases h

theorem isName_of_readNamed? {cast : CastMode} {type : TypeExpr} {text : List Char}
    {attr : AttributeExpr} (h : readNamed? cast type text = some attr) :
    ∀ name ∈ attr.name, IsName name := by
  unfold readNamed? at h
  obtain ⟨⟨name, afterName⟩, hname, hrest⟩ := Option.bind_eq_some_iff.mp h
  have hread := isName_of_readName? hname
  have hattr : attr.name = some name := by
    simp only at hrest
    split at hrest
    · cases hrest
      rfl
    · split at hrest
      · cases hrest
      · cases hrest
        rfl
    · cases hrest
  intro other hother
  rw [hattr] at hother
  cases hother
  exact hread

theorem isName_of_readAttribute? {text : List Char} {attr : AttributeExpr}
    (h : readAttribute? text = some attr) : ∀ name ∈ attr.name, IsName name := by
  unfold readAttribute? at h
  obtain ⟨⟨type, afterType⟩, -, hrest⟩ := Option.bind_eq_some_iff.mp h
  simp only at hrest
  split at hrest
  · cases hrest
    intro name hname
    cases hname
  · exact isName_of_readNamed? hrest

/-- The attribute in a line has a name of the notation, if it has one. -/
theorem isName_of_read? {line : List Char} {attr : AttributeExpr}
    (h : read? line = some (.member attr)) : ∀ name ∈ attr.name, IsName name := by
  unfold read? at h
  simp only at h
  split at h
  · split at h <;> cases h
  · rcases Option.or_eq_some_iff.mp (Option.orElse_eq_or.symm.trans h) with
      hdirective | ⟨-, hmember⟩
    · unfold readDirective? at hdirective
      obtain ⟨afterSign, -, hrest⟩ := Option.bind_eq_some_iff.mp hdirective
      obtain ⟨⟨name, afterName⟩, -, hlast⟩ := Option.bind_eq_some_iff.mp hrest
      cases hlast
    · obtain ⟨read, hread, hattr⟩ := Option.map_eq_some_iff.mp hmember
      cases hattr
      exact isName_of_readAttribute? hread

end Statement

/-! ## Numbers -/

theorem lt_limit32_iff {n : Nat} : n < limit32 ↔ n ≤ max32 := by
  have hmax : max32 + 1 = limit32 := rfl
  omega

theorem fit32?_eq_some_iff {n m : Nat} : fit32? n = some m ↔ n = m ∧ n ≤ max32 := by
  unfold fit32?
  split
  · next h => simp [lt_limit32_iff.mp h]
  · next h => simp [mt lt_limit32_iff.mpr h]

theorem fit32?_eq_none_iff {n : Nat} : fit32? n = none ↔ max32 < n := by
  unfold fit32?
  split
  · next h => simpa using lt_limit32_iff.mp h
  · next h => simpa using mt lt_limit32_iff.mpr h

namespace Numeral

theorem readDigits_lt {radix limit : Nat} {digits : List Char} {n m : Nat} (hn : n < limit)
    (h : readDigits radix limit digits n = .ok m) : m < limit := by
  induction digits generalizing n with
  | nil =>
    cases h
    exact hn
  | cons c rest ih =>
    rw [readDigits] at h
    split at h
    · cases h
    · split at h
      · next hnext => exact ih hnext h
      · cases h

theorem read_lt {radix limit : Nat} {text : List Char} {n : Nat} (hlimit : 0 < limit)
    (h : read radix limit text = .ok n) : n < limit := by
  unfold read at h
  split at h
  · cases h
  · cases h
  · exact readDigits_lt hlimit h
  · exact readDigits_lt hlimit h

theorem read32?_le {text : String} {n : Nat} (h : read32? text = some n) : n ≤ max32 := by
  unfold read32? at h
  cases hread : read 10 (twoPow 32) text.toList with
  | error e => simp [hread, Except.toOption] at h
  | ok m =>
    simp only [hread, Except.toOption, Option.some.injEq] at h
    rw [← h]
    exact lt_limit32_iff.mp (read_lt (Nat.pow_pos (by decide)) hread)

end Numeral

theorem readNumber_le {digits : String} {n : Nat} (h : readNumber digits = .ok n) :
    n ≤ max32 := by
  unfold readNumber at h
  split at h
  · next m hm =>
    cases h
    exact Numeral.read32?_le hm
  · cases h

/-- A bound lets an array have at least one element and a 32-bit number of them. -/
theorem BoundExpr.size_of_elaborate {bound : BoundExpr} {made : ArrayMode × Nat}
    (h : bound.elaborate = .ok made) : 1 ≤ made.2 ∧ made.2 ≤ max32 := by
  have hchecked : ∀ mode size, size ≤ max32 →
      (if size = 0 then throw LineFault.emptyArray
        else pure (mode, size) : Except LineFault (ArrayMode × Nat)) = .ok made →
      1 ≤ made.2 ∧ made.2 ≤ max32 := by
    intro mode size hsize h
    split at h
    · cases h
    · next hzero =>
      cases h
      exact ⟨Nat.one_le_iff_ne_zero.mpr hzero, hsize⟩
  cases bound with
  | atMost digits =>
    obtain ⟨n, hn, hrest⟩ := bind_eq_ok_iff.mp h
    exact hchecked .dynamic n (readNumber_le hn) hrest
  | below digits =>
    obtain ⟨n, hn, hrest⟩ := bind_eq_ok_iff.mp h
    exact hchecked .dynamic (n - 1) (Nat.le_trans (Nat.sub_le n 1) (readNumber_le hn)) hrest
  | exactly digits =>
    obtain ⟨n, hn, hrest⟩ := bind_eq_ok_iff.mp h
    exact hchecked .static n (readNumber_le hn) hrest

end BusSchema
