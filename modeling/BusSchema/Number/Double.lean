import BusSchema.Number.Format

/-!
# Double-precision values

A `Double` is a 64-bit pattern.  All arithmetic on it is exact arithmetic on the pattern:
conversions from integers round to nearest, conversions to integers drop the fraction and stop
at the ends of the target range, and the order compares patterns through `Double.rank`.
-/

namespace BusSchema

/-- A double-precision value, given by its pattern. -/
structure Double where
  /-- The 64-bit interchange pattern. -/
  bits : UInt64
deriving DecidableEq

namespace Double

/-- The value whose pattern is `bits`, of which the low 64 bits count. -/
def ofBits (bits : Nat) : Double := ⟨UInt64.ofNat bits⟩

/-- The value stands for no number. -/
def isNaN (x : Double) : Bool := BinaryFormat.double.isNaN x.bits.toNat

/-- The sign of the pattern, also of a zero. -/
def isNegative (x : Double) : Bool := BinaryFormat.double.isNegative x.bits.toNat

/-- The pattern without its sign. -/
def magnitude (x : Double) : Nat := BinaryFormat.double.magnitude x.bits.toNat

/-- The value is a number other than an infinity. -/
def isFinite (x : Double) : Bool := x.magnitude < BinaryFormat.double.infinity

/-- The value with a given sign and magnitude pattern. -/
def ofMagnitude (negative : Bool) (magnitude : Nat) : Double :=
  ofBits (BinaryFormat.double.pattern negative magnitude)

/-- The double nearest to the signed ratio `num / den`. -/
def ofRatio (negative : Bool) (num den : Nat) : Double :=
  ofMagnitude negative
    (BinaryFormat.double.nearest (num * twoPow BinaryFormat.double.unitExponent) den)

/-- The double nearest to a natural number. -/
def ofNat (n : Nat) : Double := ofRatio false n 1

/-- The double nearest to an integer; zero has no sign. -/
def ofInt (n : Int) : Double := ofRatio (n < 0) n.natAbs 1

/-- Positive zero. -/
def zero : Double := ofBits 0

/-- One. -/
def one : Double := ofNat 1

/-- One half. -/
def oneHalf : Double := ofRatio false 1 2

/-- The largest finite double. -/
def largest : Double := ofBits (BinaryFormat.double.infinity - 1)

/-- The default value that stands for no number. -/
def nan : Double := ofBits BinaryFormat.double.quietNaN

/-- The value with the opposite sign. -/
def neg (x : Double) : Double := ofMagnitude (!x.isNegative) x.magnitude

/--
The position of a number among all doubles: larger numbers have larger ranks, and the two zeros
share rank zero.
-/
def rank (x : Double) : Int := if x.isNegative then -x.magnitude else x.magnitude

/-- The order of numbers; a value that is no number is below nothing and above nothing. -/
def lt (x y : Double) : Bool := !x.isNaN && !y.isNaN && x.rank < y.rank

/-- The whole part of the magnitude of a finite double. -/
def wholePart (x : Double) : Nat :=
  BinaryFormat.double.units x.magnitude / twoPow BinaryFormat.double.unitExponent

/--
The whole part as an unsigned 64-bit integer.  Numbers below zero give zero, numbers above the
range give its largest member, and a value that is no number gives zero.
-/
def toUnsigned64 (x : Double) : Nat :=
  if x.isNaN || x.isNegative then 0
  else if x.isFinite then min x.wholePart (twoPow 64 - 1)
  else twoPow 64 - 1

/--
The whole part as a signed 64-bit integer.  Numbers outside the range give its nearest end, and
a value that is no number gives zero.
-/
def toSigned64 (x : Double) : Int :=
  if x.isNaN then 0
  else if x.isNegative then
    if x.isFinite then -(min x.wholePart (twoPow 63) : Nat) else -(twoPow 63 : Nat)
  else
    if x.isFinite then (min x.wholePart (twoPow 63 - 1) : Nat) else (twoPow 63 - 1 : Nat)

/-- The double that a pattern of another format stands for, rounded if it has to be. -/
def ofFormat (f : BinaryFormat) (bits : Nat) : Double :=
  ofBits (f.convert BinaryFormat.double bits)

/-- The nearest pattern of another format. -/
def toFormat (f : BinaryFormat) (x : Double) : Nat :=
  BinaryFormat.double.convert f x.bits.toNat

end Double

end BusSchema
