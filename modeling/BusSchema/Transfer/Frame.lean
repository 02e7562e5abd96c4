import BusSchema.Wire.Bits

/-!
# Frames

A frame travels as a 29-bit identifier and a string of bytes.  The identifier says what the frame
is about and between whom it is sent; the last byte, the tail, says which part of which transfer
it is.  `Frame.decode` reads both, and `Frame.identifier` and `Frame.wireBytes` write them.
-/

namespace BusSchema

/-- Why a frame or a payload is refused. -/
inductive FrameError
  /-- There is not even a tail byte. -/
  | noTail
  /-- The first frame of a transfer has its toggle bit clear. -/
  | legacyEncoding
  /-- One of two frames that are to be joined is a transfer of its own. -/
  | singleFrame
  /-- The payload ends before a field does; both numbers count bits from its start. -/
  | payloadTooShort (needed available : Nat)
  | missingValue (channel : String)
  /-- The values in channel order end too early. -/
  | notEnoughValues (used : Nat)
  | arrayTooLong (channel : String) (most count : Nat)
deriving DecidableEq

namespace FrameError

/-- The wording of the error. -/
def message : FrameError → String
  | noTail => "frame has no tail byte"
  | legacyEncoding =>
    "start of transfer with toggle bit 0 is UAVCAN v0 encoding, which is not supported"
  | singleFrame => "single frames cannot be appended"
  | payloadTooShort needed available =>
    "payload too short: need " ++ toString needed ++ " bits, have " ++ toString available
  | missingValue channel => "no value for channel " ++ channel
  | notEnoughValues used => "not enough values: ran out after " ++ toString used
  | arrayTooLong channel most count =>
    "dynamic array " ++ channel ++ " holds at most " ++ toString most ++ " elements, got " ++
      toString count

end FrameError

/-- The part of a transfer that a frame is. -/
inductive FrameRole
  /-- The only frame of its transfer. -/
  | single
  | start
  | middle
  | last
deriving DecidableEq

namespace FrameRole

/-- The role that the three flags of the tail stand for. -/
def classify (isStart isEnd toggle : Bool) : Except FrameError FrameRole :=
  match isStart, isEnd, toggle with
  | true, true, true => .ok .single
  | true, false, true => .ok .start
  | true, _, false => .error .legacyEncoding
  | false, true, _ => .ok .last
  | false, false, _ => .ok .middle

end FrameRole

/-- A frame, or the frames of a transfer joined into one. -/
structure Frame where
  /-- The id of the message or service. -/
  subjectId : Nat
  isService : Bool
  /-- Messages count as requests. -/
  isRequest : Bool
  source : Nat
  /-- Zero for messages. -/
  destination : Nat
  priority : Nat
  transferId : Nat
  toggle : Bool
  isStart : Bool
  isEnd : Bool
  role : FrameRole
  /-- The bytes before the tail. -/
  payload : Bytes
  completed : Bool
  timestamp : Int
deriving DecidableEq

/-- Consecutive bits of an identifier. -/
structure BitField where
  /-- The position of the lowest bit. -/
  index : Nat
  width : Nat

namespace BitField

/-- The number in the field. -/
def get (f : BitField) (identifier : Nat) : Nat := identifier / twoPow f.index % twoPow f.width

/-- An identifier with a number in the field and zeros elsewhere; the number is cut to fit. -/
def put (f : BitField) (value : Nat) : Nat := value % twoPow f.width * twoPow f.index

end BitField

namespace Identifier

/-- The node that sends the frame. -/
def source : BitField := ⟨0, 7⟩

/-- The node that a service frame is sent to. -/
def destination : BitField := ⟨7, 7⟩

/-- The subject id of a message. -/
def messageId : BitField := ⟨8, 13⟩

/-- Two bits that are set in messages. -/
def messageMark : BitField := ⟨21, 2⟩

/-- The id of a service. -/
def serviceId : BitField := ⟨14, 9⟩

/-- The service frame is a request. -/
def requestFlag : BitField := ⟨24, 1⟩

/-- The frame belongs to a service. -/
def serviceFlag : BitField := ⟨25, 1⟩

/-- The priority, zero being the most urgent. -/
def priority : BitField := ⟨26, 3⟩

end Identifier

namespace Tail

/-- The transfer id. -/
def transferId : BitField := ⟨0, 5⟩

/-- The bit that alternates from frame to frame. -/
def toggle : BitField := ⟨5, 1⟩

/-- The frame ends its transfer. -/
def endFlag : BitField := ⟨6, 1⟩

/-- The frame starts its transfer. -/
def startFlag : BitField := ⟨7, 1⟩

end Tail

namespace Frame

/-- A message that fits into one frame, without its payload. -/
def message (subjectId source priority : Nat) : Frame where
  subjectId
  isService := false
  isRequest := true
  source
  destination := 0
  priority
  transferId := 0
  toggle := true
  isStart := true
  isEnd := true
  role := .single
  payload := #[]
  completed := true
  timestamp := 0

/-- A service request or response that fits into one frame, without its payload. -/
def service (serviceId source destination : Nat) (isRequest : Bool) (priority : Nat) : Frame :=
  { message serviceId source priority with isService := true, isRequest, destination }

/-- The 29-bit identifier; numbers that are too large for their field are cut. -/
def identifier (f : Frame) : Nat :=
  let common := Identifier.source.put f.source + Identifier.priority.put f.priority
  if f.isService then
    common + Identifier.destination.put f.destination + Identifier.serviceId.put f.subjectId +
      Identifier.requestFlag.put f.isRequest.toNat + Identifier.serviceFlag.put 1
  else common + Identifier.messageId.put f.subjectId + Identifier.messageMark.put 3

/-- The tail byte. -/
def tailByte (f : Frame) : UInt8 :=
  UInt8.ofNat (Tail.transferId.put f.transferId + Tail.toggle.put f.toggle.toNat +
    Tail.endFlag.put f.isEnd.toNat + Tail.startFlag.put f.isStart.toNat)

/-- The bytes that are sent: the payload and the tail. -/
def wireBytes (f : Frame) : Bytes := f.payload.push f.tailByte

/-- The frame with the fields of an identifier, a payload and the role that its tail gives. -/
def assemble (identifier : Nat) (payload : Bytes) (tail : Nat) (role : FrameRole)
    (timestamp : Int) : Frame :=
  let isService := Identifier.serviceFlag.get identifier = 1
  { subjectId :=
      if isService then Identifier.serviceId.get identifier
      else Identifier.messageId.get identifier
    isService
    isRequest := if isService then Identifier.requestFlag.get identifier = 1 else true
    source := Identifier.source.get identifier
    destination := if isService then Identifier.destination.get identifier else 0
    priority := Identifier.priority.get identifier
    transferId := Tail.transferId.get tail
    toggle := Tail.toggle.get tail = 1
    isStart := Tail.startFlag.get tail = 1
    isEnd := Tail.endFlag.get tail = 1
    role
    payload
    completed := role = .single
    timestamp }

/-- Reads a received frame from its identifier and its bytes, of which the last is the tail. -/
def decode (identifier : Nat) (bytes : Bytes) (timestamp : Int) : Except FrameError Frame :=
  match bytes.back? with
  | none => .error .noTail
  | some tailByte =>
    let tail := tailByte.toNat
    (FrameRole.classify (Tail.startFlag.get tail = 1) (Tail.endFlag.get tail = 1)
      (Tail.toggle.get tail = 1)).map fun role =>
        assemble identifier bytes.pop tail role timestamp

/-- Joins the next frame of a transfer to the frames so far. -/
def append (f next : Frame) : Except FrameError Frame :=
  if f.role = .single ∨ next.role = .single then .error .singleFrame
  else
    .ok { f with
      isStart := false
      payload := f.payload ++ next.payload
      toggle := next.toggle
      role := next.role
      completed := next.role = .last }

end Frame

end BusSchema
