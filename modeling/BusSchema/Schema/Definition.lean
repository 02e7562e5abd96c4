import BusSchema.Schema.Literal
import BusSchema.Text.Blank

/-!
# Definitions

A definition is the content of one schema file: a message with one section of fields, or a
service with a request and a response section.  A field may have a compound type, which is given
by the position of its definition in a list of definitions; a definition only refers to those
before it.
-/

namespace BusSchema

/-- How the number of elements of an array is fixed. -/
inductive ArrayMode
  /-- Always exactly the declared number. -/
  | static
  /-- Any number up to the declared one, counted on the wire. -/
  | dynamic
deriving DecidableEq

/-- The type of a field. -/
inductive FieldType
  | primitive (type : Primitive)
  | padding (type : Padding)
  /-- The definition at a position. -/
  | compound (id : Nat)
  | array (element : FieldType) (mode : ArrayMode) (size : Nat)
deriving DecidableEq

namespace FieldType

/-- The type is a compound type. -/
def isCompound : FieldType → Bool
  | compound _ => true
  | _ => false

/-- The type is padding. -/
def isPadding : FieldType → Bool
  | padding _ => true
  | _ => false

/-- The positions that a type refers to. -/
def references : FieldType → List Nat
  | primitive _ => []
  | padding _ => []
  | compound id => [id]
  | array element _ _ => element.references

end FieldType

/-- Width of the element count in front of an array. -/
def countWidth (mode : ArrayMode) (size : Nat) : Nat :=
  match mode with
  | .static => 0
  | .dynamic => ceilLog2 size

/-- A data field.  Padding has the empty name. -/
structure Field where
  name : String
  type : FieldType
deriving DecidableEq

namespace Field

/-- The field that holds padding. -/
def ofPadding (padding : Padding) : Field := ⟨"", .padding padding⟩

end Field

/-- A named value of a primitive type. -/
structure Constant where
  name : String
  type : Primitive
  value : ConstantValue
  /-- The literal as written, without blanks. -/
  literal : String
deriving DecidableEq

namespace Constant

/-- The constant in schema notation. -/
def spelling (c : Constant) : String :=
  c.type.spelling ++ " " ++ c.name ++ " = " ++ c.literal

end Constant

/-- One side of a definition. -/
structure Section where
  fields : List Field := []
  constants : List Constant := []
  /-- Only one of the fields is present at a time. -/
  isUnion : Bool := false
deriving DecidableEq

/-- The version of a definition, ordered by its major number first. -/
structure Version where
  major : Nat := 0
  minor : Nat := 0
deriving DecidableEq

namespace Version

/-- One version is at most another. -/
def le (a b : Version) : Bool := a.major < b.major || (a.major = b.major && a.minor ≤ b.minor)

/-- The version with a point between its numbers. -/
def spelling (v : Version) : String := toString v.major ++ "." ++ toString v.minor

end Version

/-- A message or service definition. -/
structure Definition where
  /-- The name with its namespace, segments separated by points. -/
  name : String
  version : Version := {}
  /-- The identifier on the bus; zero for definitions that only occur inside others. -/
  subjectId : Nat := 0
  /-- The only section of a message, or the request of a service. -/
  request : Section := {}
  /-- The response, which services have and messages have not. -/
  response : Option Section := none
deriving DecidableEq

namespace Definition

/-- The request section, and the response section of a service. -/
def sections (d : Definition) : List Section := d.request :: d.response.toList

/-- The positions that the fields of a definition refer to. -/
def references (d : Definition) : List Nat :=
  d.sections.flatMap fun s => s.fields.flatMap fun f => f.type.references

theorem mem_references {d : Definition} {s : Section} (hs : s ∈ d.sections) {f : Field}
    (hf : f ∈ s.fields) {id : Nat} (hid : id ∈ f.type.references) : id ∈ d.references :=
  List.mem_flatMap.mpr ⟨s, hs, List.mem_flatMap.mpr ⟨f, hf, hid⟩⟩

/-- The definition describes a service. -/
def isService (d : Definition) : Bool := d.response.isSome

/-- The definition is sent on the bus on its own. -/
def isRoutable (d : Definition) : Bool := d.subjectId ≠ 0

/-- The segments of the name. -/
def segments (d : Definition) : List String := Text.split '.' d.name

/-- The last segment of the name. -/
def shortName (d : Definition) : String := d.segments.getLast?.getD d.name

/-- The segments of the name before the last one. -/
def nameSpace (d : Definition) : String := Text.join "." d.segments.dropLast

end Definition

end BusSchema
