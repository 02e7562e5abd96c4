import BusSchema.Wire.Width

/-!
# Bits of a byte string

Bits are counted from the low end: bit `p` of a byte string is bit `p % 8` of byte `p / 8`.
`bitAt` is the view through which reading and writing are described.  A value occupies
consecutive bits, its own bit zero first; where it fills whole bytes, these are read and written as
a whole.

`read?` and `write` take any place.  `readAt` and `writeAt` take a machine word for it, as positions
in memory are: they compute the end of the range and that of the bytes in machine words too, and
fail where one of them is none (`InWords`).
-/

namespace BusSchema

/-- A byte string. -/
abbrev Bytes := Array UInt8

namespace Bits

/-- Bit `p` of a byte string; beyond the end all bits are clear. -/
def bitAt (bytes : Bytes) (p : Nat) : Bool :=
  ((bytes[p / 8]?).getD 0).toNat.testBit (p % 8)

/-- The number whose bit `i` is `bit (offset + i)` for `i < width`. -/
def gather (bit : Nat → Bool) (offset : Nat) : Nat → Nat
  | 0 => 0
  | width + 1 => (bit offset).toNat + 2 * gather bit (offset + 1) width

/-- The number of bytes that hold the given number of bits. -/
def bytesFor (bits : Nat) : Nat := (bits + 7) / 8

/-- The number whose bytes, the lowest one first, are those from byte `start` on. -/
def littleEndian (bytes : Bytes) (start : Nat) : Nat → Nat
  | 0 => 0
  | count + 1 => ((bytes[start]?).getD 0).toNat + 256 * littleEndian bytes (start + 1) count

/-- The range of bits is one of whole bytes. -/
def IsAligned (offset width : Nat) : Prop := offset % 8 = 0 ∧ width % 8 = 0

instance (offset width : Nat) : Decidable (IsAligned offset width) :=
  inferInstanceAs (Decidable (_ ∧ _))

/--
Reads a value of at most 64 bits that starts at bit `offset` and ends inside the bytes: whole bytes
at once, and other ranges bit by bit.
-/
def read? (bytes : Bytes) (offset width : Nat) : Option Nat :=
  if width ≤ maxValueWidth ∧ offset + width ≤ 8 * bytes.size then
    if IsAligned offset width then some (littleEndian bytes (offset / 8) (width / 8))
    else some (gather (bitAt bytes) offset width)
  else none

/-- The byte with the given bits. -/
def packByte (bit : Nat → Bool) : UInt8 := UInt8.ofNat (gather bit 0 8)

/-- A byte with one of its bits replaced. -/
def setBitOfByte (k : Nat) (b : Bool) (byte : UInt8) : UInt8 :=
  packByte fun i => if i = k then b else byte.toNat.testBit i

/-- The bytes with bit `p` replaced; a bit beyond the end stays as it is. -/
def setBit (bytes : Bytes) (p : Nat) (b : Bool) : Bytes :=
  bytes.modify (p / 8) (setBitOfByte (p % 8) b)

/-- The bytes, followed by as many zero bytes as the given size needs. -/
def growTo (size : Nat) (bytes : Bytes) : Bytes :=
  bytes ++ Array.replicate (size - bytes.size) 0

/-- The bytes, cut off or followed by zero bytes, so that there are as many as the given size. -/
def resize (size : Nat) (bytes : Bytes) : Bytes := growTo size (bytes.shrink size)

/-- Replaces consecutive bits, from bit `offset` on, by the low bits of a value. -/
def overwrite (bytes : Bytes) (offset : Nat) : Nat → Nat → Bytes
  | 0, _ => bytes
  | width + 1, value =>
    overwrite (setBit bytes offset (value.testBit 0)) (offset + 1) width (value / 2)

/-- Replaces consecutive bytes, from byte `start` on, by the low bytes of a value. -/
def overwriteBytes (bytes : Bytes) (start : Nat) : Nat → Nat → Bytes
  | 0, _ => bytes
  | count + 1, value =>
    overwriteBytes (bytes.setIfInBounds start (UInt8.ofNat value)) (start + 1) count (value / 256)

/--
Writes the low bits of a value at bit `offset`, growing the bytes as needed: whole bytes at once,
and other ranges bit by bit.  At most 64 bits are written, and all others keep their values.
-/
def write (bytes : Bytes) (offset width value : Nat) : Bytes :=
  let width := min width maxValueWidth
  let grown := growTo (bytesFor (offset + width)) bytes
  if IsAligned offset width then overwriteBytes grown (offset / 8) (width / 8) value
  else overwrite grown offset width value

/-! ## Positions in machine words -/

/-- Why there is no value and nothing is written. -/
inductive PositionError
  /-- The end of the range, or that of the bytes, is too large for a machine word. -/
  | overflow
deriving DecidableEq, Repr

/-- The end of the range and that of the bytes, counted in bits, are machine words of 64 bits. -/
def InWords (bytes : Bytes) (offset width : Nat) : Prop :=
  offset + width < UInt64.size ∧ 8 * bytes.size < UInt64.size

instance (bytes : Bytes) (offset width : Nat) : Decidable (InWords bytes offset width) :=
  inferInstanceAs (Decidable (_ ∧ _))

/-- Reads a value at a word position.  A width that no value has is refused at once. -/
def readAt (bytes : Bytes) (offset : UInt64) (width : Nat) :
    Except PositionError (Option Nat) :=
  if maxValueWidth < width then .ok none
  else if InWords bytes offset.toNat width then .ok (read? bytes offset.toNat width)
  else .error .overflow

/-- Writes the low bits of a value at a word position. -/
def writeAt (bytes : Bytes) (offset : UInt64) (width value : Nat) : Except PositionError Bytes :=
  if InWords bytes offset.toNat (min width maxValueWidth) then
    .ok (write bytes offset.toNat width value)
  else .error .overflow

end Bits

end BusSchema
