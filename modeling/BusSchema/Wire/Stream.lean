import BusSchema.Wire.Bits.View

/-!
# Bit streams

A reader walks over bytes and a writer collects them, both with a position counted in bits.  A
reader's step that fails leaves no new reader behind, so the old one can try a smaller step.  A
writer never has more bytes than its position needs, so no byte is lost when it passes over bits.
-/

namespace BusSchema

/-- A position in bytes that are being read. -/
structure BitReader where
  /-- All the bytes, also those already read. -/
  bytes : Bytes
  /-- The number of bits already read or skipped. -/
  offset : Nat := 0

namespace BitReader

/-- The number of bits after the position. -/
def remaining (r : BitReader) : Nat := 8 * r.bytes.size - r.offset

/-- Reads the next value of the given width. -/
def read? (r : BitReader) (width : Nat) : Option (Nat × BitReader) :=
  (Bits.read? r.bytes r.offset width).map fun value =>
    (value, { r with offset := r.offset + width })

/-- Passes over bits without reading them. -/
def skip? (r : BitReader) (width : Nat) : Option BitReader :=
  if r.remaining < width then none else some { r with offset := r.offset + width }

end BitReader

/-- Bytes that are being written. -/
structure BitWriter where
  /-- The bytes so far. -/
  bytes : Bytes := #[]
  /-- The number of bits that were written or skipped. -/
  offset : Nat := 0
  /-- There are no more bytes than the position needs. -/
  size_le : bytes.size ≤ Bits.bytesFor offset := by exact Nat.zero_le _

namespace BitWriter

/-- Appends the low bits of a value. -/
def write (w : BitWriter) (width value : Nat) : BitWriter where
  bytes := Bits.write w.bytes w.offset width value
  offset := w.offset + width
  size_le := by
    have hold := Nat.le_trans w.size_le (Bits.bytesFor_mono (Nat.le_add_right w.offset width))
    have hmin : w.offset + min width maxValueWidth ≤ w.offset + width := by omega
    rw [Bits.size_write]
    exact Nat.max_le.mpr ⟨hold, Bits.bytesFor_mono hmin⟩

/-- Appends zero bits, with as many bytes as the new position needs. -/
def skip (w : BitWriter) (width : Nat) : BitWriter where
  bytes := Bits.resize (Bits.bytesFor (w.offset + width)) w.bytes
  offset := w.offset + width
  size_le := by
    have hold := Nat.le_trans w.size_le (Bits.bytesFor_mono (Nat.le_add_right w.offset width))
    rw [Bits.resize_of_le hold, Bits.size_growTo]
    exact Nat.max_le.mpr ⟨Nat.le_refl _, hold⟩

/-- Passing over bits loses no byte. -/
theorem bytes_skip (w : BitWriter) (width : Nat) :
    (w.skip width).bytes = Bits.growTo (Bits.bytesFor (w.offset + width)) w.bytes :=
  Bits.resize_of_le
    (Nat.le_trans w.size_le (Bits.bytesFor_mono (Nat.le_add_right w.offset width)))

end BitWriter

end BusSchema
