import BusSchema.Wire.Scalar

/-!
# Primitive types and padding

A primitive type is a scalar kind with a width that the kind allows, and a padding type is a
number of bits that carry nothing.  Both keep the proof that their width is allowed, so a value
of these types is always well-formed.
-/

namespace BusSchema

/-- What an encoder should do with a value outside the range of its type. -/
inductive CastMode
  | saturated
  | truncated
deriving DecidableEq

namespace CastMode

/-- The keyword of the mode. -/
def name : CastMode → String
  | saturated => "saturated"
  | truncated => "truncated"

end CastMode

/-- Why a width is refused. -/
inductive WidthError
  /-- A boolean of another width than one. -/
  | bool
  /-- An integer outside of 2 to 64 bits. -/
  | integer (kind : ScalarKind) (width : Nat)
  /-- A float that is in none of the three formats. -/
  | float (width : Nat)
  /-- Padding asked for as a primitive type. -/
  | notPrimitive
  /-- Padding outside of 1 to 64 bits. -/
  | padding (width : Nat)
deriving DecidableEq

namespace WidthError

/-- The wording of the error. -/
def message : WidthError → String
  | bool => "bool is always 1 bit"
  | integer kind width =>
    kind.name ++ toString width ++ ": integer bit length must be in [2, 64]"
  | float width => "float" ++ toString width ++ ": bit length must be 16, 32 or 64"
  | notPrimitive => "void is not a primitive type"
  | padding width => "void" ++ toString width ++ ": bit length must be in [1, 64]"

end WidthError

namespace ScalarKind

/-- The widths that a primitive type of the kind may have. -/
def AllowsWidth : ScalarKind → Nat → Prop
  | bool, width => width = 1
  | unsigned, width => 2 ≤ width ∧ width ≤ 64
  | signed, width => 2 ≤ width ∧ width ≤ 64
  | float, width => width = 16 ∨ width = 32 ∨ width = 64
  | void, _ => False

instance (kind : ScalarKind) (width : Nat) : Decidable (kind.AllowsWidth width) := by
  cases kind <;> simp only [AllowsWidth] <;> infer_instance

/-- The refusal of a width that the kind does not allow. -/
def widthError (kind : ScalarKind) (width : Nat) : WidthError :=
  match kind with
  | bool => .bool
  | unsigned => .integer unsigned width
  | signed => .integer signed width
  | float => .float width
  | void => .notPrimitive

end ScalarKind

/-- A boolean, integer or float type. -/
structure Primitive where
  /-- What the bits mean. -/
  kind : ScalarKind
  /-- The number of bits. -/
  width : Nat
  /-- The declared out-of-range policy, which encoding does not look at. -/
  cast : CastMode
  /-- The kind allows the width. -/
  allowed : kind.AllowsWidth width
deriving DecidableEq

namespace Primitive

/-- The type with the given kind and width, if the kind allows it. -/
def ofWidth (kind : ScalarKind) (width : Nat) (cast : CastMode) : Except WidthError Primitive :=
  if h : kind.AllowsWidth width then .ok ⟨kind, width, cast, h⟩
  else .error (kind.widthError width)

/-- The boolean type. -/
def boolean (cast : CastMode) : Primitive := ⟨.bool, 1, cast, rfl⟩

/-- The least and the greatest value of the type, as doubles. -/
def range (p : Primitive) : Double × Double :=
  match p.kind with
  | .bool => (Double.zero, Double.one)
  | .unsigned => (Double.zero, Double.ofNat (twoPow p.width - 1))
  | .signed => (Double.ofInt (-(twoPow (p.width - 1) : Int)), Double.ofNat (twoPow (p.width - 1) - 1))
  | .float =>
    let greatest :=
      if p.width = 16 then Double.ofFormat .half (BinaryFormat.half.infinity - 1)
      else if p.width = 32 then Double.ofFormat .single (BinaryFormat.single.infinity - 1)
      else Double.largest
    (greatest.neg, greatest)
  | .void => (Double.zero, Double.zero)

/-- The type in schema notation, with its cast mode spelled out. -/
def spelling (p : Primitive) : String :=
  match p.kind with
  | .bool => p.cast.name ++ " bool"
  | kind => p.cast.name ++ " " ++ kind.name ++ toString p.width

end Primitive

/-- Padding of 1 to 64 bits. -/
structure Padding where
  /-- The number of bits. -/
  width : Nat
  /-- The width lies in its range. -/
  allowed : 1 ≤ width ∧ width ≤ 64
deriving DecidableEq

namespace Padding

/-- Padding of the given width, if that is allowed. -/
def ofWidth (width : Nat) : Except WidthError Padding :=
  if h : 1 ≤ width ∧ width ≤ 64 then .ok ⟨width, h⟩ else .error (.padding width)

/-- The padding in schema notation. -/
def spelling (p : Padding) : String := "void" ++ toString p.width

end Padding

end BusSchema
