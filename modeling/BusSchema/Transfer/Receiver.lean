import BusSchema.Layout.Catalogue
import BusSchema.Transfer.Payload
import BusSchema.Transfer.Reassembly

/-!
# The receiver

A receiver takes frames as they arrive, puts transfers together and reads their values with the
layout of their id.  An id without a layout is reported once; its transfers are dropped.  Another
catalogue can take the place of the current one at any time, and transfers under way are then
read with the new one.
-/

namespace BusSchema

/-- A completed transfer with its values. -/
structure Transfer where
  subjectId : Nat
  name : String
  isService : Bool
  isRequest : Bool
  source : Nat
  destination : Nat
  timestamp : Int
  values : NamedValues

/-- What a receiver knows and has under way. -/
structure Receiver where
  catalogue : Catalogue := {}
  reassembly : Reassembly := {}
  /-- The ids of messages that were reported as unknown. -/
  unknownMessages : List Nat := []
  /-- The ids of services that were reported as unknown. -/
  unknownServices : List Nat := []

/-- A name and the channels to read a payload with. -/
structure NamedLayout where
  name : String
  channels : List Channel

namespace Catalogue

/-- The layout of a frame's message, or of the side of its service. -/
def layoutOf? (catalogue : Catalogue) (f : Frame) : Option NamedLayout :=
  if f.isService then
    (catalogue.service? f.subjectId).map fun s =>
      ⟨s.name, if f.isRequest then s.request else s.response⟩
  else (catalogue.message? f.subjectId).map fun m => ⟨m.name, m.channels⟩

/--
The number of payload bytes that a transfer may have: those of the longest layout, a checksum and
the padding of one long frame.
-/
def transferLimit (catalogue : Catalogue) : Nat := catalogue.maxPayloadBytes + 64

end Catalogue

namespace Receiver

variable [HalfConversion]

/-- A receiver that has seen no frame yet. -/
def ofCatalogue (catalogue : Catalogue) : Receiver :=
  { catalogue, reassembly := { limit := catalogue.transferLimit } }

/-- The receiver with another catalogue, and all ids counting as unreported. -/
def reload (r : Receiver) (catalogue : Catalogue) : Receiver :=
  { catalogue, reassembly := r.reassembly.setLimit catalogue.transferLimit }

/-- What handling a frame comes to: a transfer, nothing, or an error. -/
abbrev Received := Outcome Receiver (Except FrameError (Option Transfer))

/-- Drops a transfer without a layout, and reports its id if that was not done yet. -/
def reportUnknown (r : Receiver) (f : Frame) : Received :=
  if f.isService then
    if f.subjectId ∈ r.unknownServices then ⟨.ok none, r, []⟩
    else
      ⟨.ok none, { r with unknownServices := f.subjectId :: r.unknownServices },
        [.unknownService f.subjectId]⟩
  else
    if f.subjectId ∈ r.unknownMessages then ⟨.ok none, r, []⟩
    else
      ⟨.ok none, { r with unknownMessages := f.subjectId :: r.unknownMessages },
        [.unknownMessage f.subjectId]⟩

/-- The transfer of a completed frame with the given values. -/
def transferOf (f : Frame) (name : String) (values : NamedValues) : Transfer :=
  ⟨f.subjectId, name, f.isService, f.isRequest, f.source, f.destination, f.timestamp, values⟩

/-- Reads the values of a completed transfer. -/
def complete (r : Receiver) (f : Frame) : Received :=
  match r.catalogue.layoutOf? f with
  | none => r.reportUnknown f
  | some layout =>
    ⟨(f.parse layout.channels).map fun values => some (transferOf f layout.name values), r, []⟩

/-- Handles a frame that was read already. -/
def accept (r : Receiver) (f : Frame) : Received :=
  let stored := r.reassembly.store f
  let r := { r with reassembly := stored.state }
  match stored.result with
  | .error e => ⟨.error e, r, stored.notices⟩
  | .ok none => ⟨.ok none, r, stored.notices⟩
  | .ok (some completed) =>
    let outcome := r.complete completed
    { outcome with notices := stored.notices ++ outcome.notices }

/-- Handles a frame as it arrives; the last byte is its tail. -/
def receive (r : Receiver) (identifier : Nat) (bytes : Bytes) (timestamp : Int) : Received :=
  match Frame.decode identifier bytes timestamp with
  | .error e => ⟨.error e, r, []⟩
  | .ok f => r.accept f

end Receiver

end BusSchema
