import BusSchema.Schema.Table

/-!
# Channels

A channel is a leaf of a section: one scalar, a run of padding bits, or a dynamic array of
scalars with its element count.  Flattening turns the fields of a definition into channels whose
names are the paths from the definition to the leaf.
-/

namespace BusSchema

/-- The element count in front of a dynamic array. -/
structure ElementCount where
  /-- The declared maximum of the array. -/
  capacity : Nat
  /-- Width of the count; only `Channel.dynamicArray` ties it to the maximum. -/
  width : Nat
deriving DecidableEq

/-- A flattened field. -/
structure Channel where
  kind : ScalarKind
  /-- Width of one value; for an array, of one element. -/
  width : Nat
  /-- The path of the field, empty for padding. -/
  name : String := ""
  /-- The count of a dynamic array. -/
  count : Option ElementCount := none
deriving DecidableEq

namespace Channel

/-- A single value. -/
def scalar (kind : ScalarKind) (width : Nat) (name : String) : Channel := ⟨kind, width, name, none⟩

/-- Bits that carry nothing. -/
def padding (width : Nat) : Channel := ⟨.void, width, "", none⟩

/-- An array of values, whose count is just wide enough for numbers below the declared maximum. -/
def dynamicArray (kind : ScalarKind) (width : Nat) (name : String) (capacity : Nat) : Channel :=
  ⟨kind, width, name, some ⟨capacity, ceilLog2 capacity⟩⟩

/-- The channel is padding. -/
def isVoid (c : Channel) : Bool := c.kind = .void

/-- The channel is a counted array. -/
def isDynamic (c : Channel) : Bool := c.count.isSome

/-- The declared maximum of a dynamic array. -/
def capacity (c : Channel) : Option Nat := c.count.map ElementCount.capacity

theorem isDynamic_eq (c : Channel) : c.isDynamic = c.capacity.isSome := Option.isSome_map.symm

/-- Width of the element count; zero without one. -/
def countWidth (c : Channel) : Nat := c.count.elim 0 ElementCount.width

/-- The greatest number of bits that the channel takes, as a 32-bit number. -/
def greatest (c : Channel) : Nat :=
  match c.capacity with
  | some capacity => saturate32 (saturate32 (c.width * capacity) + c.countWidth)
  | none => c.width

/--
The greatest number of elements that the array can carry: no more than declared, and no more than
its count has patterns.
-/
def maxCount (c : Channel) : Nat :=
  min (c.capacity.getD 0) (min (patternCount c.countWidth - 1) max32)

/-- The name of an element of the array. -/
def elementName (c : Channel) (index : Nat) : String := c.name ++ "_" ++ toString index

end Channel

/-- A path with one more step; empty paths and steps leave no trace. -/
def joinName (parent name : String) : String :=
  if parent = "" then name
  else if name = "" then parent
  else parent ++ "." ++ name

/-- The path of an element of an array. -/
def indexedName (path : String) (index : Nat) : String := path ++ "_" ++ toString index

/-- A channel with a path in front of its name; padding stays without a name. -/
def Channel.below (c : Channel) (path : String) : Channel :=
  { c with name := if c.isVoid then "" else joinName path c.name }

/-- The channels of a compound type, given the path to it. -/
abbrev Template := String → List Channel

/--
The channels of the `count` elements of an array of compounds, from the channels of one element.
Elements without channels need not be counted.
-/
def elementChannels (channels : List Channel) (path : String) (count : Nat) : List Channel :=
  if channels.isEmpty then []
  else
    (List.range count).flatMap fun i =>
      channels.map fun c => c.below (indexedName path i)

/--
The channels of a type at a path.  Static arrays and arrays of compounds become one group of
channels for each element; the count of a dynamic array of compounds is a channel of its own.
-/
def FieldType.flattenWith (compounds : List Template) (path : String) :
    FieldType → List Channel
  | .padding p => [Channel.padding p.width]
  | .primitive p => [Channel.scalar p.kind p.width path]
  | .compound id => ((compounds[id]?).map fun template => template path).getD []
  | .array (.primitive p) .dynamic size => [Channel.dynamicArray p.kind p.width path size]
  | .array (.primitive p) .static size =>
    (List.range size).map fun i => Channel.scalar p.kind p.width (indexedName path i)
  | .array (.compound id) mode size =>
    let width := BusSchema.countWidth mode size
    let count := if width = 0 then [] else [Channel.scalar .unsigned width (path ++ "_count")]
    let channels := ((compounds[id]?).map fun template => template "").getD []
    count ++ elementChannels channels path size
  | .array _ _ _ => []

/-- The channels of fields below a parent path. -/
def flattenFields (compounds : List Template) (fields : List Field) : Template := fun parent =>
  fields.flatMap fun f => f.type.flattenWith compounds (joinName parent f.name)

namespace TypeTable

/-- The channels of each definition as a compound type. -/
def templates (table : TypeTable) : List Template :=
  table.definitions.foldl
    (fun compounds d => compounds ++ [flattenFields compounds d.request.fields]) []

/-- The channels of fields whose names are paths below `parent`. -/
def flatten (table : TypeTable) (fields : List Field) (parent : String) : List Channel :=
  flattenFields table.templates fields parent

end TypeTable

end BusSchema
