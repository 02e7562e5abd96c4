import BusSchema.Number.Power

/-!
# Widths in bits

How many bits a count or a tag needs, and the reading of a bit pattern as a signed number.
-/

namespace BusSchema

/-- The rounded-up binary logarithm: the least `k` with `n ≤ 2 ^ k`. -/
def ceilLog2 (n : Nat) : Nat := if n ≤ 1 then 0 else Nat.log2 (n - 1) + 1

/-- The number of binary digits of `n`; zero has one. -/
def bitWidth (n : Nat) : Nat := if n = 0 then 1 else Nat.log2 n + 1

/-- The largest width of a value on the wire. -/
def maxValueWidth : Nat := 64

/-- The number of patterns of a width; widths beyond the largest one have no more patterns. -/
def patternCount (width : Nat) : Nat := twoPow (min width maxValueWidth)

/-- The low bits of a number, as many as the width says. -/
def lowBits (width value : Nat) : Nat := value % patternCount width

theorem lowBits_eq_mod {width : Nat} (hwidth : width ≤ maxValueWidth) (value : Nat) :
    lowBits width value = value % twoPow width := by
  rw [lowBits, patternCount, Nat.min_eq_left hwidth]

/-- The low 64 bits of a number, read in two's complement. -/
def signed64 (raw : Nat) : Int := Int.bmod raw (twoPow maxValueWidth)

/--
A pattern read as a two's complement number of the given width, whatever bits stand above it: the
pattern is moved to the upper end of 64 bits, and the signed number that stands there is moved back.
A width of zero, or one beyond the largest, reads all 64 bits.
-/
def signExtend (raw width : Nat) : Int :=
  if width = 0 ∨ maxValueWidth ≤ width then signed64 raw
  else signed64 (raw <<< (maxValueWidth - width)) >>> (maxValueWidth - width)

/-- The 32-bit whole numbers are those below this limit. -/
def limit32 : Nat := twoPow 32

/-- The largest 32-bit whole number. -/
def max32 : Nat := limit32 - 1

/-- A whole number if it fits into 32 bits. -/
def fit32? (n : Nat) : Option Nat := if n < limit32 then some n else none

/-- A whole number, or the largest 32-bit one if it is above that. -/
def saturate32 (n : Nat) : Nat := min n max32

end BusSchema
