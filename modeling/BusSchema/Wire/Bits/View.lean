import BusSchema.Wire.Bits

/-!
# Reading and writing, bit by bit

What the operations on byte strings do to the view `bitAt`.  `bitAt_write` says that a write
replaces the bits of its range and leaves all others alone, and `testBit_of_read?` that a read
returns the bits of its range.

Byte strings are determined by their sizes and bits (`eq_of_bitAt`), so a range of whole bytes is
read and written as if this were done bit by bit (`littleEndian_eq_gather`,
`overwriteBytes_eq_overwrite`).
-/

namespace BusSchema

namespace Bits

theorem testBit_gather (bit : Nat → Bool) (offset width i : Nat) :
    (gather bit offset width).testBit i = (decide (i < width) && bit (offset + i)) := by
  induction width generalizing offset i with
  | zero => simp [gather]
  | succ width ih =>
    cases i with
    | zero =>
      rw [gather, Nat.testBit_zero]
      cases bit offset with
      | false => simp
      | true => simp
    | succ i =>
      have hhalf : ((bit offset).toNat + 2 * gather bit (offset + 1) width) / 2 =
          gather bit (offset + 1) width := by
        have hbit := Bool.toNat_le (bit offset)
        omega
      rw [gather, Nat.testBit_succ, hhalf, ih]
      simp only [Nat.add_lt_add_iff_right, Nat.add_assoc, Nat.add_comm 1 i]

theorem gather_lt (bit : Nat → Bool) (offset width : Nat) :
    gather bit offset width < twoPow width := by
  induction width generalizing offset with
  | zero => exact Nat.one_pos
  | succ width ih =>
    have h := ih (offset + 1)
    have hpow : twoPow (width + 1) = twoPow width * 2 := rfl
    have hbit := Bool.toNat_le (bit offset)
    rw [gather, hpow]
    omega

theorem testBit_packByte (bit : Nat → Bool) (i : Nat) :
    (packByte bit).toNat.testBit i = (decide (i < 8) && bit i) := by
  have h : gather bit 0 8 < 256 := gather_lt bit 0 8
  rw [packByte, UInt8.toNat_ofNat_of_lt' h, testBit_gather, Nat.zero_add]

theorem bitAt_eq_false {bytes : Bytes} {p : Nat} (h : 8 * bytes.size ≤ p) :
    bitAt bytes p = false := by
  rw [bitAt, Array.getElem?_eq_none (by omega)]
  simp

@[simp]
theorem size_setBit (bytes : Bytes) (p : Nat) (b : Bool) :
    (setBit bytes p b).size = bytes.size := Array.size_modify

theorem bitAt_setBit (bytes : Bytes) (p q : Nat) (b : Bool) :
    bitAt (setBit bytes p b) q =
      if q = p ∧ p < 8 * bytes.size then b else bitAt bytes q := by
  unfold bitAt setBit
  rw [Array.getElem?_modify]
  by_cases hbyte : p / 8 = q / 8
  · by_cases hq : q / 8 < bytes.size
    · rw [Array.getElem?_eq_getElem hq]
      have hrange : p < 8 * bytes.size := by omega
      have hmod : q % 8 < 8 := Nat.mod_lt _ (by decide)
      have hpq : q % 8 = p % 8 ↔ q = p := by omega
      simp only [hbyte, if_true, Option.map_some, Option.getD_some, setBitOfByte, testBit_packByte,
        hmod, decide_true, Bool.true_and, hpq, hrange, and_true]
    · rw [Array.getElem?_eq_none (by omega)]
      have hrange : ¬p < 8 * bytes.size := by omega
      simp [hrange]
  · have hpq : q ≠ p := fun h => hbyte (h ▸ rfl)
    simp [hbyte, hpq]

@[simp]
theorem size_growTo (size : Nat) (bytes : Bytes) :
    (growTo size bytes).size = max size bytes.size := by
  rw [growTo, Array.size_append, Array.size_replicate]
  omega

@[simp]
theorem bitAt_growTo (size : Nat) (bytes : Bytes) (p : Nat) :
    bitAt (growTo size bytes) p = bitAt bytes p := by
  unfold bitAt growTo
  rw [Array.getElem?_append]
  split
  · rfl
  · next h =>
    rw [Array.getElem?_eq_none (Nat.le_of_not_lt h), Array.getElem?_replicate]
    split <;> rfl

@[simp]
theorem size_overwrite (bytes : Bytes) (offset width value : Nat) :
    (overwrite bytes offset width value).size = bytes.size := by
  induction width generalizing bytes offset value with
  | zero => rfl
  | succ width ih => rw [overwrite, ih, size_setBit]

theorem bitAt_overwrite (bytes : Bytes) (offset width value p : Nat)
    (h : offset + width ≤ 8 * bytes.size) :
    bitAt (overwrite bytes offset width value) p =
      if offset ≤ p ∧ p < offset + width then value.testBit (p - offset)
      else bitAt bytes p := by
  induction width generalizing bytes offset value with
  | zero => rw [overwrite, if_neg (by omega)]
  | succ width ih =>
    rw [overwrite, ih _ _ _ (by rw [size_setBit]; omega), bitAt_setBit]
    have hrange : offset < 8 * bytes.size := by omega
    by_cases hp : p = offset
    · subst hp
      rw [if_neg (by omega), if_pos ⟨rfl, hrange⟩, if_pos (by omega), Nat.sub_self]
    · rw [if_neg (fun h : p = offset ∧ offset < 8 * bytes.size => hp h.1)]
      by_cases hin : offset + 1 ≤ p ∧ p < offset + 1 + width
      · rw [if_pos hin, if_pos (by omega), ← Nat.testBit_succ]
        congr 1
        omega
      · rw [if_neg hin, if_neg (by omega)]

theorem bytesFor_mono {a b : Nat} (h : a ≤ b) : bytesFor a ≤ bytesFor b := by
  unfold bytesFor
  omega

/-- Bytes that are not too many only grow. -/
theorem resize_of_le {size : Nat} {bytes : Bytes} (h : bytes.size ≤ size) :
    resize size bytes = growTo size bytes := by
  rw [resize, Array.shrink_eq_take, Array.take_eq_extract, Array.extract_eq_self_of_le h]

/-! ## Whole bytes -/

theorem eq_of_bitAt {a b : Bytes} (hsize : a.size = b.size) (h : ∀ p, bitAt a p = bitAt b p) :
    a = b := by
  refine Array.ext hsize fun k hka hkb => UInt8.toNat_inj.mp (Nat.eq_of_testBit_eq fun i => ?_)
  rcases Nat.lt_or_ge i 8 with hi | hi
  · have hbit := h (8 * k + i)
    have hbyte : (8 * k + i) / 8 = k := by omega
    have hplace : (8 * k + i) % 8 = i := by omega
    unfold bitAt at hbit
    rwa [hbyte, hplace, Array.getElem?_eq_getElem hka, Array.getElem?_eq_getElem hkb] at hbit
  · have hpow : 2 ^ 8 ≤ 2 ^ i := Nat.pow_le_pow_right (by decide) hi
    rw [Nat.testBit_lt_two_pow (Nat.lt_of_lt_of_le a[k].toNat_lt hpow),
      Nat.testBit_lt_two_pow (Nat.lt_of_lt_of_le b[k].toNat_lt hpow)]

theorem testBit_littleEndian (bytes : Bytes) (start count i : Nat) :
    (littleEndian bytes start count).testBit i =
      (decide (i < 8 * count) && bitAt bytes (8 * start + i)) := by
  induction count generalizing start i with
  | zero => simp [littleEndian]
  | succ count ih =>
    have hbyte : ((bytes[start]?).getD 0).toNat < 2 ^ 8 := UInt8.toNat_lt _
    have hsplit : littleEndian bytes start (count + 1) =
        2 ^ 8 * littleEndian bytes (start + 1) count + ((bytes[start]?).getD 0).toNat :=
      Nat.add_comm _ _
    rw [hsplit, Nat.testBit_two_pow_mul_add _ hbyte]
    split
    · next hi =>
      have hfirst : (8 * start + i) / 8 = start := by omega
      have hplace : (8 * start + i) % 8 = i := by omega
      rw [bitAt, hfirst, hplace, decide_eq_true (by omega), Bool.true_and]
    · next hi =>
      have hrange : i - 8 < 8 * count ↔ i < 8 * (count + 1) := by omega
      have hplace : 8 * (start + 1) + (i - 8) = 8 * start + i := by omega
      rw [ih, hplace, decide_eq_decide.mpr hrange]

/-- Whole bytes are read as if bit by bit. -/
theorem littleEndian_eq_gather (bytes : Bytes) {offset width : Nat} (h : IsAligned offset width) :
    littleEndian bytes (offset / 8) (width / 8) = gather (bitAt bytes) offset width := by
  have hoffset : 8 * (offset / 8) = offset := Nat.mul_div_cancel' (Nat.dvd_of_mod_eq_zero h.1)
  have hwidth : 8 * (width / 8) = width := Nat.mul_div_cancel' (Nat.dvd_of_mod_eq_zero h.2)
  refine Nat.eq_of_testBit_eq fun i => ?_
  rw [testBit_littleEndian, testBit_gather, hoffset, hwidth]

theorem bitAt_setIfInBounds {bytes : Bytes} {start : Nat} (hstart : start < bytes.size)
    (byte : UInt8) (p : Nat) :
    bitAt (bytes.setIfInBounds start byte) p =
      if p / 8 = start then byte.toNat.testBit (p % 8) else bitAt bytes p := by
  unfold bitAt
  rw [Array.getElem?_setIfInBounds]
  by_cases hp : start = p / 8
  · rw [if_pos hp, if_pos hp.symm, if_pos (hp ▸ hstart), Option.getD_some]
  · rw [if_neg hp, if_neg (Ne.symm hp)]

@[simp]
theorem size_overwriteBytes (bytes : Bytes) (start count value : Nat) :
    (overwriteBytes bytes start count value).size = bytes.size := by
  induction count generalizing bytes start value with
  | zero => rfl
  | succ count ih => rw [overwriteBytes, ih, Array.size_setIfInBounds]

theorem bitAt_overwriteBytes (bytes : Bytes) (start count value p : Nat)
    (h : start + count ≤ bytes.size) :
    bitAt (overwriteBytes bytes start count value) p =
      if 8 * start ≤ p ∧ p < 8 * (start + count) then value.testBit (p - 8 * start)
      else bitAt bytes p := by
  induction count generalizing bytes start value with
  | zero => rw [overwriteBytes, if_neg (by omega)]
  | succ count ih =>
    rw [overwriteBytes, ih _ _ _ (by rw [Array.size_setIfInBounds]; omega),
      bitAt_setIfInBounds (by omega)]
    by_cases hbehind : 8 * (start + 1) ≤ p ∧ p < 8 * (start + 1 + count)
    · have hplace : p - 8 * (start + 1) + 8 = p - 8 * start := by omega
      rw [if_pos hbehind, if_pos (by omega), ← hplace]
      exact Nat.testBit_div_two_pow (n := 8) value _
    · rw [if_neg hbehind]
      by_cases hfirst : p / 8 = start
      · have hplace : p - 8 * start = p % 8 := by omega
        have hlow : p % 8 < 8 := Nat.mod_lt _ (by decide)
        rw [if_pos hfirst, if_pos (by omega), hplace, UInt8.toNat_ofNat']
        rw [Nat.testBit_mod_two_pow, decide_eq_true hlow, Bool.true_and]
      · rw [if_neg hfirst, if_neg (by omega)]

/-- Whole bytes are written as if bit by bit. -/
theorem overwriteBytes_eq_overwrite {bytes : Bytes} {offset width : Nat}
    (h : IsAligned offset width) (hfits : offset + width ≤ 8 * bytes.size) (value : Nat) :
    overwriteBytes bytes (offset / 8) (width / 8) value = overwrite bytes offset width value := by
  have hoffset : 8 * (offset / 8) = offset := Nat.mul_div_cancel' (Nat.dvd_of_mod_eq_zero h.1)
  have hwidth : 8 * (width / 8) = width := Nat.mul_div_cancel' (Nat.dvd_of_mod_eq_zero h.2)
  refine eq_of_bitAt (by rw [size_overwriteBytes, size_overwrite]) fun p => ?_
  rw [bitAt_overwriteBytes _ _ _ _ _ (by omega), bitAt_overwrite _ _ _ _ _ hfits, Nat.mul_add,
    hoffset, hwidth]

/-! ## Reading and writing -/

/-- The bytes that a write grows to hold the whole range. -/
theorem le_size_growTo_bytesFor (bytes : Bytes) (bits : Nat) :
    bits ≤ 8 * (growTo (bytesFor bits) bytes).size := by
  rw [size_growTo, bytesFor]
  omega

/-- A write changes the bits of its range one by one. -/
theorem write_eq (bytes : Bytes) (offset width value : Nat) :
    write bytes offset width value =
      overwrite (growTo (bytesFor (offset + min width maxValueWidth)) bytes) offset
        (min width maxValueWidth) value := by
  unfold write
  dsimp only
  split
  · next haligned =>
    exact overwriteBytes_eq_overwrite haligned (le_size_growTo_bytesFor bytes _) value
  · rfl

/-- The bytes grow just as far as the written range needs. -/
theorem size_write (bytes : Bytes) (offset width value : Nat) :
    (write bytes offset width value).size =
      max bytes.size (bytesFor (offset + min width maxValueWidth)) := by
  rw [write_eq, size_overwrite, size_growTo, Nat.max_comm]

/-- Writing replaces the bits of its range by those of the value, and no others. -/
theorem bitAt_write (bytes : Bytes) (offset width value p : Nat) :
    bitAt (write bytes offset width value) p =
      if offset ≤ p ∧ p < offset + min width maxValueWidth then value.testBit (p - offset)
      else bitAt bytes p := by
  rw [write_eq, bitAt_overwrite _ _ _ _ _ (le_size_growTo_bytesFor bytes _), bitAt_growTo]

/-- A read puts the bits of its range together one by one. -/
theorem read?_eq (bytes : Bytes) (offset width : Nat) :
    read? bytes offset width =
      if width ≤ maxValueWidth ∧ offset + width ≤ 8 * bytes.size then
        some (gather (bitAt bytes) offset width)
      else none := by
  unfold read?
  split
  · split
    · next haligned => rw [littleEndian_eq_gather bytes haligned]
    · rfl
  · rfl

/-- A value is read exactly if it is no wider than any value and ends inside the bytes. -/
theorem read?_isSome_iff (bytes : Bytes) (offset width : Nat) :
    (read? bytes offset width).isSome ↔
      width ≤ maxValueWidth ∧ offset + width ≤ 8 * bytes.size := by
  rw [read?_eq]
  split
  · next h => simp [h]
  · next h => simp [h]

/-- The bits of a value that is read are those of its range. -/
theorem testBit_of_read? {bytes : Bytes} {offset width value : Nat}
    (h : read? bytes offset width = some value) (i : Nat) :
    value.testBit i = (decide (i < width) && bitAt bytes (offset + i)) := by
  rw [read?_eq] at h
  split at h
  · cases h
    exact testBit_gather _ _ _ _
  · cases h

end Bits

end BusSchema
