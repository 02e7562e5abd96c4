import BusSchema.Schema.Definition

/-!
# Lengths in bits

The least and the greatest number of bits that a type or a section can take on the wire.  The
greatest length is a 32-bit number or does not exist; the least one saturates.

A compound type is as long as the request section of its definition, which only refers to
definitions before it.  So a list of definitions is measured once, in order, and each definition
with the spans of those before it.
-/

namespace BusSchema

/-- Width of the tag of a union with the given number of fields. -/
def unionTagWidth (fieldCount : Nat) : Nat := bitWidth (max (fieldCount - 1) 1)

/-- The lengths that a compound type can have. -/
structure Span where
  /-- The least length. -/
  least : Nat := 0
  /-- The greatest length, if it is below `2 ^ 32`. -/
  greatest : Option Nat := some 0
deriving DecidableEq

/-- The span of the definition at a position; beyond the list it is that of no fields. -/
def spanAt (compounds : List Span) (id : Nat) : Span := (compounds[id]?).getD {}

/-- The greatest length of a type, if it is below `2 ^ 32`. -/
def FieldType.greatestWith (compounds : List Span) : FieldType → Option Nat
  | .primitive p => some p.width
  | .padding p => some p.width
  | .compound id => (spanAt compounds id).greatest
  | .array element mode size => do
    let each ← element.greatestWith compounds
    let all ← fit32? (size * each)
    fit32? (all + countWidth mode size)

/-- The least length of a type. -/
def FieldType.leastWith (compounds : List Span) : FieldType → Nat
  | .primitive p => p.width
  | .padding p => p.width
  | .compound id => (spanAt compounds id).least
  | .array element .static size => saturate32 (size * element.leastWith compounds)
  | .array _ .dynamic _ => 0

namespace Section

/-- The greatest length of a section, if it is below `2 ^ 32`. -/
def greatestWith (compounds : List Span) (s : Section) : Option Nat :=
  if s.fields.isEmpty then some 0
  else do
    let lengths ← s.fields.mapM fun f => f.type.greatestWith compounds
    if s.isUnion then
      fit32? (maximum lengths + unionTagWidth s.fields.length)
    else fit32? (total lengths)

/-- The least length of a section. -/
def leastWith (compounds : List Span) (s : Section) : Nat :=
  let lengths := s.fields.map fun f => f.type.leastWith compounds
  if s.isUnion then
    match lengths.min? with
    | none => 0
    | some least => saturate32 (least + unionTagWidth s.fields.length)
  else saturate32 (total lengths)

end Section

namespace Span

/-- The span of a definition as a compound type. -/
def measure (compounds : List Span) (d : Definition) : Span :=
  ⟨d.request.leastWith compounds, d.request.greatestWith compounds⟩

/-- The spans of definitions, each measured with those before it. -/
def measureAll (definitions : List Definition) : List Span :=
  definitions.foldl (fun compounds d => compounds ++ [measure compounds d]) []

theorem measureAll_concat (definitions : List Definition) (d : Definition) :
    measureAll (definitions ++ [d]) =
      measureAll definitions ++ [measure (measureAll definitions) d] := by
  rw [measureAll, List.foldl_append]
  rfl

end Span

end BusSchema
