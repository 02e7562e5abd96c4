import BusSchema.Wire.Bits.View
import BusSchema.Wire.Stream
import Mathlib.Data.Nat.Bitwise

/-!
# Writers and the bits they leave behind

A writer only ever appends: what it does later leaves the bits before its position alone, and
behind its position all bits are clear.  So bytes that agree with the final bytes of a writer also
agree with what any earlier write of it put down (`Agrees.of_extends`), and a value is read back
from them as it was written (`gather_of_agrees_write`).
-/

namespace BusSchema

namespace Bits

theorem testBit_lowBits {width : Nat} (hwidth : width ≤ maxValueWidth) (value i : Nat) :
    (lowBits width value).testBit i = (decide (i < width) && value.testBit i) := by
  rw [lowBits_eq_mod hwidth]
  exact Nat.testBit_mod_two_pow value width i

theorem gather_eq_lowBits {bit : Nat → Bool} {offset width value : Nat}
    (hwidth : width ≤ maxValueWidth)
    (h : ∀ i < width, bit (offset + i) = value.testBit i) :
    gather bit offset width = lowBits width value := by
  apply Nat.eq_of_testBit_eq
  intro i
  rw [testBit_gather, testBit_lowBits hwidth]
  by_cases hi : i < width
  · rw [h i hi]
  · simp [hi]

end Bits

namespace BitWriter

open Bits

/-- No more bytes than the position needs, and only clear bits behind it. -/
structure Tight (w : BitWriter) : Prop where
  size : w.bytes.size = bytesFor w.offset
  clear : ∀ p, w.offset ≤ p → bitAt w.bytes p = false

theorem tight_empty : Tight {} := by
  refine ⟨rfl, fun p _ => ?_⟩
  exact bitAt_eq_false (Nat.zero_le p)

theorem tight_write {w : BitWriter} (hw : w.Tight) {width : Nat}
    (hwidth : width ≤ maxValueWidth) (value : Nat) : (w.write width value).Tight := by
  have hmin : min width maxValueWidth = width := Nat.min_eq_left hwidth
  constructor
  · have hmono := bytesFor_mono (Nat.le_add_right w.offset width)
    simp only [write, size_write, hmin, hw.size]
    omega
  · intro p hp
    simp only [write] at hp ⊢
    rw [bitAt_write, hmin, if_neg (by omega)]
    exact hw.clear p (by omega)

theorem tight_skip {w : BitWriter} (hw : w.Tight) (width : Nat) : (w.skip width).Tight := by
  constructor
  · rw [bytes_skip, size_growTo, hw.size]
    exact Nat.max_eq_left (bytesFor_mono (Nat.le_add_right w.offset width))
  · intro p hp
    simp only [skip] at hp
    rw [bytes_skip, bitAt_growTo]
    exact hw.clear p (by omega)

/-- One writer goes on from another: the earlier bits are the same. -/
structure Extends (w next : BitWriter) : Prop where
  offset : w.offset ≤ next.offset
  bits : ∀ p < w.offset, bitAt next.bytes p = bitAt w.bytes p

theorem Extends.refl (w : BitWriter) : w.Extends w := ⟨Nat.le_refl _, fun _ _ => rfl⟩

theorem Extends.trans {a b c : BitWriter} (hab : a.Extends b) (hbc : b.Extends c) :
    a.Extends c := by
  refine ⟨Nat.le_trans hab.offset hbc.offset, fun p hp => ?_⟩
  rw [hbc.bits p (Nat.lt_of_lt_of_le hp hab.offset), hab.bits p hp]

theorem extends_write (w : BitWriter) (width value : Nat) : w.Extends (w.write width value) := by
  refine ⟨Nat.le_add_right _ _, fun p hp => ?_⟩
  rw [write, bitAt_write, if_neg (by omega)]

theorem extends_skip (w : BitWriter) (width : Nat) : w.Extends (w.skip width) := by
  refine ⟨Nat.le_add_right _ _, fun p _ => ?_⟩
  rw [bytes_skip, bitAt_growTo]

/-- Bytes that start with all the bits of a writer. -/
structure Agrees (bytes : Bytes) (w : BitWriter) : Prop where
  size : w.offset ≤ 8 * bytes.size
  bits : ∀ p < w.offset, bitAt bytes p = bitAt w.bytes p

theorem Agrees.of_extends {bytes : Bytes} {w next : BitWriter} (h : Agrees bytes next)
    (hext : w.Extends next) : Agrees bytes w := by
  refine ⟨Nat.le_trans hext.offset h.size, fun p hp => ?_⟩
  rw [h.bits p (Nat.lt_of_lt_of_le hp hext.offset), hext.bits p hp]

/-- Further bytes behind those of a writer do no harm. -/
theorem Tight.agrees_append {w : BitWriter} (hw : w.Tight) (extra : Bytes) :
    Agrees (w.bytes ++ extra) w := by
  have hsize : w.offset ≤ 8 * w.bytes.size := by
    rw [hw.size, bytesFor]
    omega
  constructor
  · rw [Array.size_append]
    omega
  · intro p hp
    unfold bitAt
    rw [Array.getElem?_append_left (by omega)]

theorem gather_of_agrees_write {bytes : Bytes} {w : BitWriter} {width value : Nat}
    (hwidth : width ≤ maxValueWidth) (h : Agrees bytes (w.write width value)) :
    gather (bitAt bytes) w.offset width = lowBits width value := by
  apply gather_eq_lowBits hwidth
  intro i hi
  rw [h.bits (w.offset + i) (Nat.add_lt_add_left hi _), write, bitAt_write,
    Nat.min_eq_left hwidth, if_pos (by omega), Nat.add_sub_cancel_left]

end BitWriter

end BusSchema
