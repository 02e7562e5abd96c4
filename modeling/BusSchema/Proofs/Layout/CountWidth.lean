import BusSchema.Proofs.Payload.Reading
import BusSchema.Proofs.Wire.Buffer
import Mathlib.Order.Bounds.Basic

/-!
# Counts and their widths

The count in front of an array has as many bits as the rounded-up logarithm of the capacity, which
is the least exponent of a power of two that is not below the capacity (`ceilLog2_le_iff`).  So the
capacity itself is a pattern of the count unless it is a power of two, and the greatest count is
the capacity or one less (`Channel.maxCount_characterized`).
-/

namespace BusSchema

section Logarithm

variable {n k : Nat}

/-- An exponent reaches the rounded-up logarithm exactly if its power reaches the number. -/
theorem ceilLog2_le_iff : ceilLog2 n ≤ k ↔ n ≤ 2 ^ k := by
  have hpower : 1 ≤ 2 ^ k := Nat.one_le_two_pow
  unfold ceilLog2
  by_cases hn : n ≤ 1
  · rw [if_pos hn]
    exact iff_of_true (Nat.zero_le k) (hn.trans hpower)
  · have hpred : n - 1 ≠ 0 := by omega
    rw [if_neg hn, Nat.succ_le_iff, Nat.log2_lt hpred]
    omega

theorem le_two_pow_ceilLog2 (n : Nat) : n ≤ 2 ^ ceilLog2 n := ceilLog2_le_iff.mp (Nat.le_refl _)

theorem isLeast_ceilLog2 (n : Nat) : IsLeast {k | n ≤ 2 ^ k} (ceilLog2 n) :=
  ⟨le_two_pow_ceilLog2 n, fun _ hk => ceilLog2_le_iff.mpr hk⟩

theorem ceilLog2_two_pow (k : Nat) : ceilLog2 (2 ^ k) = k := by
  apply Nat.le_antisymm
  · exact ceilLog2_le_iff.mpr (Nat.le_refl _)
  · have hle := le_two_pow_ceilLog2 (2 ^ k)
    exact (Nat.pow_le_pow_iff_right (by decide)).mp hle

/-- Only a power of two is as large as the number of patterns of its width. -/
theorem lt_two_pow_ceilLog2 (h : ¬∃ k, n = 2 ^ k) : n < 2 ^ ceilLog2 n :=
  Nat.lt_of_le_of_ne (le_two_pow_ceilLog2 n) fun heq => h ⟨ceilLog2 n, heq⟩

end Logarithm

namespace Channel

variable {capacity : Nat} (kind : ScalarKind) (width : Nat) (name : String)

/-- The greatest count is limited by the capacity and by the patterns of the count alone. -/
theorem maxCount_dynamicArray (hcapacity : capacity ≤ max32) :
    (dynamicArray kind width name capacity).maxCount =
      min capacity (2 ^ ceilLog2 capacity - 1) := by
  have hwidth : ceilLog2 capacity ≤ 32 := ceilLog2_le hcapacity
  have hpatterns : patternCount (ceilLog2 capacity) = 2 ^ ceilLog2 capacity := by
    rw [patternCount, Nat.min_eq_left (hwidth.trans (by decide))]
    rfl
  have hmax : (dynamicArray kind width name capacity).maxCount =
      min capacity (min (patternCount (ceilLog2 capacity) - 1) max32) := rfl
  rw [hmax, hpatterns]
  omega

/-- The greatest count is the greatest number up to the capacity that has a pattern. -/
theorem isGreatest_maxCount (hcapacity : capacity ≤ max32) :
    IsGreatest {count | count ≤ capacity ∧ count < 2 ^ ceilLog2 capacity}
      (dynamicArray kind width name capacity).maxCount := by
  have hpatterns : 0 < 2 ^ ceilLog2 capacity := Nat.two_pow_pos _
  rw [maxCount_dynamicArray kind width name hcapacity]
  constructor
  · show _ ≤ _ ∧ _ < _
    omega
  · rintro count ⟨hdeclared, hpattern⟩
    omega

theorem maxCount_of_not_two_pow (hcapacity : capacity ≤ max32) (h : ¬∃ k, capacity = 2 ^ k) :
    (dynamicArray kind width name capacity).maxCount = capacity := by
  have hlt := lt_two_pow_ceilLog2 h
  rw [maxCount_dynamicArray kind width name hcapacity]
  omega

theorem maxCount_of_two_pow (hcapacity : capacity ≤ max32) {k : Nat} (h : capacity = 2 ^ k) :
    (dynamicArray kind width name capacity).maxCount = capacity - 1 := by
  rw [maxCount_dynamicArray kind width name hcapacity, h, ceilLog2_two_pow]
  omega

/-- A count with a pattern is read back from where it was written. -/
theorem read?_write_of_le_maxCount (hcapacity : capacity ≤ max32) {count : Nat}
    (hcount : count ≤ (dynamicArray kind width name capacity).maxCount) (bytes : Bytes)
    (offset : Nat) :
    Bits.read? (Bits.write bytes offset (ceilLog2 capacity) count) offset (ceilLog2 capacity) =
      some count := by
  have hwidth : ceilLog2 capacity ≤ maxValueWidth := (ceilLog2_le hcapacity).trans (by decide)
  have hpattern : count < 2 ^ ceilLog2 capacity :=
    Nat.lt_of_le_of_lt hcount (isGreatest_maxCount kind width name hcapacity).1.2
  have hread := Bits.read?_write_of_inside bytes count hwidth hwidth (Nat.le_refl offset)
    (Nat.le_refl _)
  rwa [Nat.sub_self, Nat.pow_zero, Nat.div_one, Nat.mod_eq_of_lt hpattern] at hread

/--
The width of a count is the least exponent of a power of two that reaches the capacity, at most 32.
The greatest count is the greatest number that is neither above the capacity nor without a pattern
of that width: the capacity if it is no power of two, one less if it is, and so zero for capacities
of zero and one.  Every count up to the greatest is read back from where it was written.
-/
theorem maxCount_characterized (hcapacity : capacity ≤ max32) :
    let c := dynamicArray kind width name capacity
    (∀ n, 1 ≤ n → IsLeast {k | n ≤ 2 ^ k} (ceilLog2 n)) ∧
      c.countWidth = ceilLog2 capacity ∧ c.countWidth ≤ 32 ∧
      IsGreatest {count | count ≤ capacity ∧ count < 2 ^ c.countWidth} c.maxCount ∧
      ((¬∃ k, capacity = 2 ^ k) → c.maxCount = capacity) ∧
      ((∃ k, capacity = 2 ^ k) → c.maxCount = capacity - 1) ∧
      (capacity ≤ 1 → c.maxCount = 0) ∧
      ∀ count ≤ c.maxCount, ∀ bytes offset,
        Bits.read? (Bits.write bytes offset c.countWidth count) offset c.countWidth =
          some count := by
  intro c
  refine ⟨fun n _ => isLeast_ceilLog2 n, rfl, ceilLog2_le hcapacity,
    isGreatest_maxCount kind width name hcapacity,
    maxCount_of_not_two_pow kind width name hcapacity, ?_, fun hsmall => ?_, ?_⟩
  · rintro ⟨k, hk⟩
    exact maxCount_of_two_pow kind width name hcapacity hk
  · have hzero : ceilLog2 capacity = 0 := if_pos hsmall
    have hpattern := (isGreatest_maxCount kind width name hcapacity).1.2
    rw [hzero, Nat.pow_zero] at hpattern
    exact Nat.lt_one_iff.mp hpattern
  · intro count hcount bytes offset
    exact read?_write_of_le_maxCount kind width name hcapacity hcount bytes offset

/-- The largest capacity has a count of 32 bits, the largest power of two one of 31 bits. -/
theorem maxCount_of_widest_capacities :
    max32 ≤ max32 ∧ 2 ^ 31 ≤ max32 ∧
      (dynamicArray .unsigned 8 "bytes" max32).maxCount = max32 ∧
      (dynamicArray .unsigned 8 "bytes" (2 ^ 31)).maxCount = 2 ^ 31 - 1 := by
  have hpower : 2 ^ 31 ≤ max32 := by decide
  have hodd : ¬∃ k, max32 = 2 ^ k := by
    rintro ⟨k, hk⟩
    have hlower : 2 ^ 31 < 2 ^ k := by
      rw [← hk]
      decide
    have hupper : 2 ^ k < 2 ^ 32 := by
      rw [← hk]
      decide
    have hlarge := (Nat.pow_lt_pow_iff_right (by decide)).mp hlower
    have hsmall := (Nat.pow_lt_pow_iff_right (by decide)).mp hupper
    omega
  obtain ⟨-, -, -, -, hall, -⟩ := maxCount_characterized .unsigned 8 "bytes" (Nat.le_refl max32)
  obtain ⟨-, -, -, -, -, hless, -⟩ := maxCount_characterized .unsigned 8 "bytes" hpower
  exact ⟨Nat.le_refl _, hpower, hall hodd, hless ⟨31, rfl⟩⟩

end Channel

end BusSchema
