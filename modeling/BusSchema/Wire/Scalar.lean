import BusSchema.Number.Half
import BusSchema.Wire.Width

/-!
# Scalar values on the wire

Every value travels between the application and the wire as a double.  `ScalarKind.decode` reads
a raw bit pattern as a double and `ScalarKind.encode` finds the pattern for a double; the width
decides how many bits count and, for floats, which format they are in.  Floats of 16 bits are
converted as the `HalfConversion` at hand does.
-/

namespace BusSchema

/-- What the bits of a scalar mean.  Voids are padding and carry no value. -/
inductive ScalarKind
  | bool
  | unsigned
  | signed
  | float
  | void
deriving DecidableEq

namespace ScalarKind

variable [HalfConversion]

/-- The name of the kind in schema notation. -/
def name : ScalarKind → String
  | bool => "bool"
  | unsigned => "uint"
  | signed => "int"
  | float => "float"
  | void => "void"

/-- The value of a raw pattern of the given width. -/
def decode (kind : ScalarKind) (width raw : Nat) : Double :=
  match kind with
  | bool => Double.ofNat (raw % 2)
  | unsigned => Double.ofNat raw
  | signed => Double.ofInt (signExtend raw width)
  | float =>
    if width = 16 then HalfConversion.widen (UInt16.ofNat raw)
    else if width = 32 then Double.ofFormat .single (raw % twoPow 32)
    else Double.ofBits raw
  | void => Double.zero

/--
The pattern of a value before it is cut to its width: integers lose their fraction and stop at
the ends of the 64-bit range, a boolean is set above one half, and floats are rounded to their
format.
-/
def pattern (kind : ScalarKind) (width : Nat) (value : Double) : Nat :=
  match kind with
  | bool => (Double.oneHalf.lt value).toNat
  | unsigned => value.toUnsigned64
  | signed => (value.toSigned64 % (twoPow maxValueWidth : Nat)).toNat
  | float =>
    if width = 16 then (HalfConversion.narrow value).toNat
    else if width = 32 then value.toFormat .single
    else value.bits.toNat
  | void => 0

/-- The raw pattern of a value, cut to its width. -/
def encode (kind : ScalarKind) (width : Nat) (value : Double) : Nat :=
  lowBits width (kind.pattern width value)

end ScalarKind

end BusSchema
