import BusSchema.Number.Power

/-!
# Binary floating-point formats

A binary interchange format is fixed by the widths of its exponent and fraction fields.  Every
finite number of a format is a whole multiple of the format's smallest positive number, its
*unit*, so patterns are read and rounded with natural numbers only.

`BinaryFormat.units` reads the magnitude part of a pattern as a number of units, and
`BinaryFormat.nearest` rounds a ratio of units to the nearest pattern, a half going to the
even neighbour and everything beyond the largest finite number going to infinity.
-/

namespace BusSchema

/-- `num / den` rounded to the nearest natural number, a half going to the even neighbour. -/
def roundHalfEven (num den : Nat) : Nat :=
  let quotient := num / den
  let twiceRest := 2 * (num % den)
  if twiceRest < den then quotient
  else if den < twiceRest then quotient + 1
  else quotient + quotient % 2

/-- A binary interchange format, given by the widths of its two magnitude fields. -/
structure BinaryFormat where
  /-- Width of the biased exponent field. -/
  exponentWidth : Nat
  /-- Width of the fraction field. -/
  fractionWidth : Nat
deriving DecidableEq

namespace BinaryFormat

/-- The 16-bit format. -/
def half : BinaryFormat := ⟨5, 10⟩

/-- The 32-bit format. -/
def single : BinaryFormat := ⟨8, 23⟩

/-- The 64-bit format. -/
def double : BinaryFormat := ⟨11, 52⟩

/-- Width of the magnitude part of a pattern; the sign bit stands directly above it. -/
def magnitudeWidth (f : BinaryFormat) : Nat := f.exponentWidth + f.fractionWidth

/-- The magnitude pattern of infinity; the patterns above it are not numbers. -/
def infinity (f : BinaryFormat) : Nat := (twoPow f.exponentWidth - 1) * twoPow f.fractionWidth

/-- The unit of the format is `2 ^ -unitExponent`. -/
def unitExponent (f : BinaryFormat) : Nat := twoPow (f.exponentWidth - 1) - 2 + f.fractionWidth

/-- The number of units that a magnitude pattern stands for. -/
def units (f : BinaryFormat) (magnitude : Nat) : Nat :=
  let exponent := magnitude / twoPow f.fractionWidth
  let fraction := magnitude % twoPow f.fractionWidth
  if exponent = 0 then fraction
  else (twoPow f.fractionWidth + fraction) * twoPow (exponent - 1)

/--
The magnitude pattern nearest to `num / den` units.

Among numbers of at least `2 ^ (fractionWidth + 1)` units only the multiples of a power of two
are representable, and `shift` is the exponent of that power.  The pattern is then `shift` steps
of the exponent field above the rounded quotient; a quotient that rounds up to the next power of
two carries into the exponent by itself.
-/
def nearest (f : BinaryFormat) (num den : Nat) : Nat :=
  let shift := Nat.log2 (num / den) - f.fractionWidth
  min (shift * twoPow f.fractionWidth + roundHalfEven num (den * twoPow shift)) f.infinity

/-- A pattern of the format put together from a sign and a magnitude. -/
def pattern (f : BinaryFormat) (negative : Bool) (magnitude : Nat) : Nat :=
  if negative then twoPow f.magnitudeWidth + magnitude else magnitude

/-- The sign of a pattern. -/
def isNegative (f : BinaryFormat) (bits : Nat) : Bool := bits.testBit f.magnitudeWidth

/-- The magnitude part of a pattern. -/
def magnitude (f : BinaryFormat) (bits : Nat) : Nat := bits % twoPow f.magnitudeWidth

/-- The pattern stands for no number. -/
def isNaN (f : BinaryFormat) (bits : Nat) : Bool := f.infinity < f.magnitude bits

/-- The pattern that results of undefined operations carry. -/
def quietNaN (f : BinaryFormat) : Nat := f.infinity + twoPow (f.fractionWidth - 1)

/-- A magnitude of one format as the nearest magnitude of another. -/
def convertMagnitude (source target : BinaryFormat) (magnitude : Nat) : Nat :=
  if source.infinity ≤ magnitude then target.infinity
  else
    target.nearest (source.units magnitude * twoPow target.unitExponent)
      (twoPow source.unitExponent)

/-- A pattern of one format as the nearest pattern of another, keeping the sign. -/
def convert (source target : BinaryFormat) (bits : Nat) : Nat :=
  if source.isNaN bits then target.quietNaN
  else
    target.pattern (source.isNegative bits)
      (convertMagnitude source target (source.magnitude bits))

end BinaryFormat

end BusSchema
