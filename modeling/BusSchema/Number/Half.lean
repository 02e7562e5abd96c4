import BusSchema.Number.Double

/-!
# Half-precision values

Values of 16 bits are not converted here: which double a pattern stands for, and which pattern a
double is turned into, is up to a `HalfConversion`.  `HalfConversion.IsStandard` says what the
standard for floating-point arithmetic makes of numbers, as far as all ways to narrow a double agree
on it: a double is rounded at once, or by way of 32 bits, or the lower half of its pattern is cut
off first.  `HalfConversion.nearest` are conversions that round at once.
-/

namespace BusSchema

/-- The lower half of the pattern is clear, so that the fraction has no more than 20 digits. -/
def Double.IsShort (x : Double) : Prop := x.bits.toNat % twoPow 32 = 0

/-- The conversions between patterns of 16 bits and doubles. -/
class HalfConversion where
  /-- The double that a pattern stands for. -/
  widen : UInt16 → Double
  /-- The pattern of a double. -/
  narrow : Double → UInt16

namespace HalfConversion

/--
Numbers and infinities are widened without loss, and those with short fractions are narrowed to the
nearest pattern, ties going to the even one.  Nothing is said about patterns that stand for no
number.
-/
structure IsStandard [HalfConversion] : Prop where
  widen_eq : ∀ bits : UInt16, BinaryFormat.half.isNaN bits.toNat = false →
    widen bits = Double.ofFormat .half bits.toNat
  narrow_eq : ∀ x : Double, x.isNaN = false → x.IsShort → (narrow x).toNat = x.toFormat .half

/-- The conversions of the standard, with one pattern for what is no number. -/
scoped instance nearest : HalfConversion where
  widen bits := Double.ofFormat .half bits.toNat
  narrow x := UInt16.ofNat (x.toFormat .half)

end HalfConversion

end BusSchema
