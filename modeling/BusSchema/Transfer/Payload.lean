import BusSchema.Bindings
import BusSchema.Layout.Channel
import BusSchema.Transfer.Frame
import BusSchema.Wire.Scalar
import BusSchema.Wire.Stream

/-!
# Payloads

A payload is the values of a list of channels, one after the other without gaps.  Values have the
names of their channels, and the elements of an array the name of the array with an index behind
it.  Writing takes values by name or in channel order; in channel order the element count of an
array is a value of its own.
-/

namespace BusSchema

/-- Values by name. -/
abbrev NamedValues := Bindings Double

namespace Payload

variable [HalfConversion]

/-- The error of a reader that has fewer bits left than it needs. -/
def tooShort (r : BitReader) (width : Nat) : FrameError :=
  .payloadTooShort (r.offset + width) (r.offset + r.remaining)

/-- Reads a raw pattern. -/
def readRaw (width : Nat) (r : BitReader) : Except FrameError (Nat × BitReader) :=
  match r.read? width with
  | some next => .ok next
  | none => .error (tooShort r width)

/-- Passes over padding. -/
def skipBits (width : Nat) (r : BitReader) : Except FrameError BitReader :=
  match r.skip? width with
  | some next => .ok next
  | none => .error (tooShort r width)

/-- Reads one value of a channel and binds it to a name. -/
def readNamed (c : Channel) (name : String) (values : NamedValues) (r : BitReader) :
    Except FrameError (NamedValues × BitReader) := do
  let (raw, r) ← readRaw c.width r
  return (values.bind name (c.kind.decode c.width raw), r)

/-- Reads a number of elements of an array, the first of which has the given index. -/
def readElements (c : Channel) : Nat → Nat → NamedValues → BitReader →
    Except FrameError (NamedValues × BitReader)
  | 0, _, values, r => .ok (values, r)
  | remaining + 1, index, values, r => do
    let (values, r) ← readNamed c (c.elementName index) values r
    readElements c remaining (index + 1) values r

/-- Reads what a channel takes of a payload. -/
def readChannel (c : Channel) (values : NamedValues) (r : BitReader) :
    Except FrameError (NamedValues × BitReader) :=
  if c.isVoid then return (values, ← skipBits c.width r)
  else if c.isDynamic then do
    let (count, r) ← readRaw c.countWidth r
    if c.maxCount < count then throw (.arrayTooLong c.name c.maxCount count)
    readElements c count 0 values r
  else readNamed c c.name values r

/-- Reads the channels one after the other. -/
def readChannels : List Channel → NamedValues → BitReader →
    Except FrameError (NamedValues × BitReader)
  | [], values, r => .ok (values, r)
  | c :: rest, values, r => do
    let (values, r) ← readChannel c values r
    readChannels rest values r

/-- The values in a payload; bytes behind the last channel do not matter. -/
def read (channels : List Channel) (payload : Bytes) : Except FrameError NamedValues :=
  (readChannels channels {} ⟨payload, 0⟩).map Prod.fst

/-- Appends one value of a channel. -/
def writeValue (c : Channel) (w : BitWriter) (value : Double) : BitWriter :=
  w.write c.width (c.kind.encode c.width value)

/-- Appends an array with its count; the count has to fit as well as the declared maximum. -/
def writeElements (c : Channel) (w : BitWriter) (elements : List Double) :
    Except FrameError BitWriter :=
  if c.maxCount < elements.length then
    .error (.arrayTooLong c.name c.maxCount elements.length)
  else .ok (elements.foldl (writeValue c) (w.write c.countWidth elements.length))

/-- The elements of an array from an index to the first one that is not bound, at most `most`. -/
def boundFrom (c : Channel) (values : NamedValues) : Nat → Nat → List Double
  | 0, _ => []
  | most + 1, index =>
    match values.get? (c.elementName index) with
    | none => []
    | some value => value :: boundFrom c values most (index + 1)

/--
The elements of an array that are bound: those with the indices from zero to the first index that
is not bound.  There are no more of them than bindings, for their names differ.
-/
def boundElements (c : Channel) (values : NamedValues) : List Double :=
  boundFrom c values values.entries.length 0

/-- Appends a channel with its values taken by name. -/
def writeNamedChannel (values : NamedValues) (w : BitWriter) (c : Channel) :
    Except FrameError BitWriter :=
  if c.isVoid then .ok (w.skip c.width)
  else if c.isDynamic then writeElements c w (boundElements c values)
  else
    match values.get? c.name with
    | some value => .ok (writeValue c w value)
    | none => .error (.missingValue c.name)

/-- The payload of values taken by name. -/
def writeNamed (channels : List Channel) (values : NamedValues) : Except FrameError Bytes :=
  (channels.foldlM (writeNamedChannel values) {}).map BitWriter.bytes

/-- Values in channel order that are still to be written, and how many were taken already. -/
structure Supply where
  values : List Double
  used : Nat := 0

/-- Takes the next value. -/
def Supply.next (s : Supply) : Except FrameError (Double × Supply) :=
  match s.values with
  | [] => .error (.notEnoughValues s.used)
  | value :: rest => .ok (value, ⟨rest, s.used + 1⟩)

/-- Takes a number of values. -/
def Supply.take (s : Supply) (count : Nat) : Except FrameError (List Double × Supply) :=
  if s.values.length < count then .error (.notEnoughValues (s.used + s.values.length))
  else .ok (s.values.take count, ⟨s.values.drop count, s.used + count⟩)

/-- Appends a channel with its values taken in order. -/
def writeOrderedChannel (state : BitWriter × Supply) (c : Channel) :
    Except FrameError (BitWriter × Supply) := do
  let (w, supply) := state
  if c.isVoid then return (w.skip c.width, supply)
  else if c.isDynamic then
    let (count, supply) ← supply.next
    let (elements, supply) ← supply.take count.toUnsigned64
    return (← writeElements c w elements, supply)
  else
    let (value, supply) ← supply.next
    return (writeValue c w value, supply)

/-- The payload of values taken in channel order; further values do not matter. -/
def writeOrdered (channels : List Channel) (values : List Double) :
    Except FrameError Bytes :=
  (channels.foldlM writeOrderedChannel ({}, ⟨values, 0⟩)).map fun (w, _) => w.bytes

end Payload

namespace Frame

variable [HalfConversion]

/-- The values in the payload of a frame. -/
def parse (f : Frame) (channels : List Channel) : Except FrameError NamedValues :=
  Payload.read channels f.payload

/-- The frame with a payload of values taken by name. -/
def serializeNamed (f : Frame) (channels : List Channel) (values : NamedValues) :
    Except FrameError Frame :=
  (Payload.writeNamed channels values).map fun payload => { f with payload }

/-- The frame with a payload of values taken in channel order. -/
def serializeOrdered (f : Frame) (channels : List Channel) (values : List Double) :
    Except FrameError Frame :=
  (Payload.writeOrdered channels values).map fun payload => { f with payload }

end Frame

end BusSchema
