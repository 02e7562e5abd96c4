import BusSchema.Wire.Stream
import Mathlib.Data.Nat.Bitwise

/-!
# Values in a buffer

A value of at most 64 bits is written anywhere in a buffer, behind its end as well, and what is read
from the buffer afterwards is the value where the two ranges meet and the old content elsewhere
(`Bits.readAt_after_writeAt`).  That ranges of whole bytes take another way than all others shows
nowhere.

The streams count their positions without a bound.  As long as their bytes have word positions they
do what is done at such a position (`BitReader.readAt_offset`, `BitWriter.writeAt_offset`).
-/

namespace BusSchema

namespace Bits

/-- What a buffer looks like after the low bits of a value were written into it. -/
structure IsWritten (before : Bytes) (offset width value : Nat) (after : Bytes) : Prop where
  /-- The buffer is as long as before, or ends with the value. -/
  size : after.size = max before.size (bytesFor (offset + width))
  inside : ∀ i < width, bitAt after (offset + i) = value.testBit i
  kept : ∀ p < 8 * before.size, p < offset ∨ offset + width ≤ p → bitAt after p = bitAt before p
  /-- The bits that are new are clear outside of the value. -/
  clear : ∀ p, 8 * before.size ≤ p → p < offset ∨ offset + width ≤ p → bitAt after p = false

/-- A result of reading a range of bits, which is only missing if the range ends too late. -/
structure IsRead (bytes : Bytes) (offset width : Nat) (result : Option Nat) : Prop where
  isSome_iff : result.isSome ↔ offset + width ≤ 8 * bytes.size
  lt : ∀ n ∈ result, n < 2 ^ width
  bits : ∀ n ∈ result, ∀ i < width, n.testBit i = bitAt bytes (offset + i)

section Buffer

variable (bytes : Bytes) {width : Nat} (hwidth : width ≤ maxValueWidth) (offset value : Nat)

include hwidth

theorem isWritten_write : IsWritten bytes offset width value (write bytes offset width value) := by
  have hmin : min width maxValueWidth = width := Nat.min_eq_left hwidth
  have houtside : ∀ p, p < offset ∨ offset + width ≤ p →
      bitAt (write bytes offset width value) p = bitAt bytes p := by
    intro p hp
    rw [bitAt_write, hmin, if_neg (by omega)]
  refine ⟨by rw [size_write, hmin], ?_, fun p _ hp => houtside p hp, fun p hnew hp => ?_⟩
  · intro i hi
    rw [bitAt_write, hmin, if_pos (by omega), Nat.add_sub_cancel_left]
  · rw [houtside p hp, bitAt_eq_false hnew]

theorem isRead_read? : IsRead bytes offset width (read? bytes offset width) := by
  refine ⟨by rw [read?_isSome_iff, and_iff_right hwidth], fun n hn => ?_, fun n hn i hi => ?_⟩
  · refine Nat.lt_pow_two_of_testBit n fun i hi => ?_
    rw [testBit_of_read? hn, decide_eq_false (Nat.not_lt.mpr hi), Bool.false_and]
  · rw [testBit_of_read? hn, decide_eq_true hi, Bool.true_and]

/-- A written value reaches no further than the buffer. -/
theorem le_size_write : offset + width ≤ 8 * (write bytes offset width value).size := by
  rw [(isWritten_write bytes hwidth offset value).size, bytesFor]
  omega

end Buffer

/-- A range that ends in the buffer is read as the number that has its bits. -/
theorem read?_eq_some {bytes : Bytes} {offset width n : Nat} (hwidth : width ≤ maxValueWidth)
    (hfits : offset + width ≤ 8 * bytes.size) (hn : n < 2 ^ width)
    (hbits : ∀ i < width, bitAt bytes (offset + i) = n.testBit i) :
    read? bytes offset width = some n := by
  rw [read?_eq, if_pos ⟨hwidth, hfits⟩]
  refine congrArg some (Nat.eq_of_testBit_eq fun i => ?_)
  rw [testBit_gather]
  rcases Nat.lt_or_ge i width with hi | hi
  · rw [decide_eq_true hi, Bool.true_and, hbits i hi]
  · have hpow : 2 ^ width ≤ 2 ^ i := Nat.pow_le_pow_right (by decide) hi
    rw [decide_eq_false (Nat.not_lt.mpr hi), Bool.false_and,
      Nat.testBit_lt_two_pow (Nat.lt_of_lt_of_le hn hpow)]

/-- A range inside a written value is read as these bits of the value. -/
theorem read?_write_of_inside (bytes : Bytes) {offset width start count : Nat} (value : Nat)
    (hwidth : width ≤ maxValueWidth) (hcount : count ≤ maxValueWidth) (hstart : offset ≤ start)
    (hend : start + count ≤ offset + width) :
    read? (write bytes offset width value) start count =
      some (value / 2 ^ (start - offset) % 2 ^ count) := by
  have hfits := le_size_write bytes hwidth offset value
  have hpos : 0 < 2 ^ count := Nat.two_pow_pos count
  refine read?_eq_some hcount (by omega) (Nat.mod_lt _ hpos) fun i hi => ?_
  have hinside := (isWritten_write bytes hwidth offset value).inside (start - offset + i) (by omega)
  have hplace : offset + (start - offset + i) = start + i := by omega
  rw [← hplace, hinside, Nat.testBit_mod_two_pow, decide_eq_true hi, Bool.true_and,
    Nat.testBit_div_two_pow, Nat.add_comm i]

/-- A range of the old buffer that does not meet a written value is read as before. -/
theorem read?_write_of_outside {bytes : Bytes} {offset width value start count : Nat}
    (hwidth : width ≤ maxValueWidth) (hcount : count ≤ maxValueWidth)
    (hapart : start + count ≤ offset ∨ offset + width ≤ start)
    (hold : start + count ≤ 8 * bytes.size) :
    read? (write bytes offset width value) start count = read? bytes start count := by
  have hwritten := isWritten_write bytes hwidth offset value
  have hread := isRead_read? bytes hcount start
  obtain ⟨n, hn⟩ := Option.isSome_iff_exists.mp (hread.isSome_iff.mpr hold)
  have hfits : start + count ≤ 8 * (write bytes offset width value).size := by
    rw [hwritten.size]
    omega
  rw [hn]
  refine read?_eq_some hcount hfits (hread.lt n hn) fun i hi => ?_
  rw [hwritten.kept (start + i) (by omega) (by omega), hread.bits n hn i hi]

/-! ## Word positions -/

/-- In bytes that end at a word position, every range inside has word positions. -/
theorem inWords_of_fits {bytes : Bytes} {offset width : Nat} (hsize : 8 * bytes.size < UInt64.size)
    (hfits : offset + width ≤ 8 * bytes.size) : InWords bytes offset width :=
  ⟨Nat.lt_of_le_of_lt hfits hsize, hsize⟩

section WordPosition

variable {bytes : Bytes} {offset : UInt64} {width : Nat} (hwidth : width ≤ maxValueWidth)

include hwidth

theorem readAt_eq : readAt bytes offset width =
    if InWords bytes offset.toNat width then .ok (read? bytes offset.toNat width)
    else .error .overflow := by
  rw [readAt, if_neg (Nat.not_lt.mpr hwidth)]

theorem writeAt_eq (value : Nat) : writeAt bytes offset width value =
    if InWords bytes offset.toNat width then .ok (write bytes offset.toNat width value)
    else .error .overflow := by
  rw [writeAt, Nat.min_eq_left hwidth]

end WordPosition

/-- What is read from a buffer into which the low bits of a value were written. -/
structure IsReread (before : Bytes) (offset width value : Nat) (start : UInt64) (count : Nat)
    (result : Option Nat) : Prop where
  inside : offset ≤ start.toNat → start.toNat + count ≤ offset + width →
    result = some (value / 2 ^ (start.toNat - offset) % 2 ^ count)
  /-- Apart from the value, the old buffer is read as before. -/
  outside : start.toNat + count ≤ offset ∨ offset + width ≤ start.toNat →
    start.toNat + count ≤ 8 * before.size → readAt before start count = .ok result
  bits : ∀ n ∈ result, ∀ i < count, n.testBit i =
    if offset ≤ start.toNat + i ∧ start.toNat + i < offset + width then
      value.testBit (start.toNat + i - offset)
    else bitAt before (start.toNat + i)

theorem isReread_read? {bytes : Bytes} (hsize : 8 * bytes.size < UInt64.size) (offset : Nat)
    {width : Nat} (hwidth : width ≤ maxValueWidth) (value : Nat) (start : UInt64) {count : Nat}
    (hcount : count ≤ maxValueWidth) :
    IsReread bytes offset width value start count
      (read? (write bytes offset width value) start.toNat count) := by
  refine ⟨read?_write_of_inside bytes value hwidth hcount, fun hapart hold => ?_, ?_⟩
  · rw [readAt_eq hcount, if_pos (inWords_of_fits hsize hold),
      read?_write_of_outside hwidth hcount hapart hold]
  · intro n hn i hi
    rw [(isRead_read? _ hcount start.toNat).bits n hn i hi, bitAt_write, Nat.min_eq_left hwidth]

/--
A range is read, and a value is written there, exactly if the end of the range and that of the
buffer are machine words.  What is read is the number that has the bits of the range, if the range
ends in the buffer, and nothing otherwise.

After a value was written, its bits stand in its range, and all other bits are those of the old
buffer, or clear.  So a value is read back where it was written, and nothing else has changed.  It
makes no difference whether a range is treated as whole bytes or bit by bit.
-/
theorem readAt_after_writeAt (bytes : Bytes) (offset : UInt64) {width : Nat}
    (hwidth : width ≤ maxValueWidth) (value : Nat) :
    let place := offset.toNat
    let grown := growTo (bytesFor (place + width)) bytes
    (¬InWords bytes place width →
        readAt bytes offset width = .error .overflow ∧
          writeAt bytes offset width value = .error .overflow) ∧
      (InWords bytes place width →
        (∃ found, readAt bytes offset width = .ok found ∧ IsRead bytes place width found) ∧
          ∃ written, writeAt bytes offset width value = .ok written ∧
            IsWritten bytes place width value written ∧
            (InWords written place width →
              readAt written offset width = .ok (some (value % 2 ^ width))) ∧
            ∀ (start : UInt64) (count : Nat), count ≤ maxValueWidth →
              InWords written start.toNat count →
                ∃ found, readAt written start count = .ok found ∧
                  IsRead written start.toNat count found ∧
                  IsReread bytes place width value start count found) ∧
      (IsAligned place width →
        overwriteBytes grown (place / 8) (width / 8) value = overwrite grown place width value ∧
          littleEndian bytes (place / 8) (width / 8) = gather (bitAt bytes) place width) := by
  intro place grown
  rw [readAt_eq hwidth, writeAt_eq hwidth]
  refine ⟨?_, ?_, ?_⟩
  · intro hbeyond
    exact ⟨if_neg hbeyond, if_neg hbeyond⟩
  · intro hin
    rw [if_pos hin, if_pos hin]
    refine ⟨⟨_, rfl, isRead_read? bytes hwidth place⟩, _, rfl,
      isWritten_write bytes hwidth place value, ?_, ?_⟩
    · intro hagain
      have hreread := isReread_read? hin.2 place hwidth value offset hwidth
      have hwhole := hreread.inside (Nat.le_refl place) (Nat.le_refl _)
      rw [Nat.sub_self, Nat.pow_zero, Nat.div_one] at hwhole
      rw [readAt_eq hwidth, if_pos hagain, hwhole]
    · intro start count hcount hagain
      refine ⟨_, by rw [readAt_eq hcount, if_pos hagain], isRead_read? _ hcount start.toNat, ?_⟩
      exact isReread_read? hin.2 place hwidth value start hcount
  · intro haligned
    exact ⟨overwriteBytes_eq_overwrite haligned (le_size_growTo_bytesFor bytes _) value,
      littleEndian_eq_gather bytes haligned⟩

/--
A value that starts inside a buffer and goes on behind its end, over another value; and a bit behind
the last word position.
-/
theorem readAt_after_writeAt_across_end :
    let before : Bytes := #[0x0f, 0xaa]
    let written : Bytes := #[0x0f, 0x5a, 0x1f]
    writeAt before 12 9 0x3f5 = .ok written ∧ readAt written 12 9 = .ok (some 0x1f5) ∧
      readAt before 0 12 = readAt written 0 12 ∧
      writeAt before 18446744073709551615 1 1 = .error .overflow := by
  intro before written
  have hwidth : 9 ≤ maxValueWidth := by decide
  have hwrite : writeAt before 12 9 0x3f5 = .ok written := by decide
  obtain ⟨-, hok, -⟩ := readAt_after_writeAt before 12 hwidth 0x3f5
  obtain ⟨-, after, hafter, -, hwhole, hranges⟩ := hok (by decide)
  obtain rfl : written = after := Except.ok.inj (hwrite.symm.trans hafter)
  obtain ⟨found, hfound, -, hreread⟩ := hranges 0 12 (by decide) (by decide)
  obtain ⟨hlast, -, -⟩ := readAt_after_writeAt before 18446744073709551615
    (show 1 ≤ maxValueWidth by decide) 1
  refine ⟨hwrite, hwhole (by decide), ?_, (hlast (by decide)).2⟩
  rw [hfound, hreread.outside (by decide) (by decide)]

end Bits

/-! ## Streams -/

/-- A reader that is inside of its bytes reads what stands at its word position. -/
theorem BitReader.readAt_offset {r : BitReader} (hinside : r.offset ≤ 8 * r.bytes.size)
    (hsize : 8 * r.bytes.size + maxValueWidth < UInt64.size) (width : Nat) :
    Bits.readAt r.bytes (UInt64.ofNat r.offset) width = .ok ((r.read? width).map Prod.fst) := by
  have hoffset : (UInt64.ofNat r.offset).toNat = r.offset :=
    UInt64.toNat_ofNat_of_lt' (by omega)
  have hread : (r.read? width).map Prod.fst = Bits.read? r.bytes r.offset width := by
    rw [BitReader.read?, Option.map_map]
    exact Option.map_id'
  rw [hread]
  rcases Nat.lt_or_ge maxValueWidth width with hwide | hwidth
  · rw [Bits.readAt, if_pos hwide, Bits.read?_eq, if_neg (by omega)]
  · have hin : Bits.InWords r.bytes r.offset width := ⟨by omega, by omega⟩
    rw [Bits.readAt_eq hwidth, hoffset, if_pos hin]

/-- A writer puts a value down at its word position. -/
theorem BitWriter.writeAt_offset (w : BitWriter)
    (hend : w.offset + maxValueWidth < UInt64.size) (width value : Nat) :
    Bits.writeAt w.bytes (UInt64.ofNat w.offset) width value = .ok (w.write width value).bytes := by
  have hoffset : (UInt64.ofNat w.offset).toNat = w.offset :=
    UInt64.toNat_ofNat_of_lt' (by omega)
  have hsize : 8 * w.bytes.size ≤ w.offset + 7 := by
    have hle := w.size_le
    unfold Bits.bytesFor at hle
    omega
  have hlast : w.offset + 7 < UInt64.size :=
    Nat.lt_trans (Nat.add_lt_add_left (by decide) w.offset) hend
  have hin : Bits.InWords w.bytes w.offset (min width maxValueWidth) := ⟨by omega, by omega⟩
  rw [Bits.writeAt, hoffset, if_pos hin, BitWriter.write]

end BusSchema
