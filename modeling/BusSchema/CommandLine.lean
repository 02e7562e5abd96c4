import BusSchema.Schema.Load
import BusSchema.Text.Hex
import BusSchema.Transfer.Receiver

/-!
# The command line

The command loads a schema and lists the layouts of its messages and services, or decodes one
frame with them.  Its arguments are read first (`Request.read`); what it then prints is a function
of the arguments and of the file tree that it finds (`Request.report`).
-/

namespace BusSchema

namespace CommandLine

/-- What a run of the command leaves behind. -/
structure Report where
  code : Nat := 0
  output : String := ""
  errors : String := ""
deriving DecidableEq

/-- What is wrong with the arguments. -/
inductive ArgumentError
  /-- The frame option lacks one of its two operands. -/
  | frameOperands
  | identifier (text : String) (error : NumeralError)
  | payload (error : HexError)
  /-- There is no root directory. -/
  | noRoot
deriving DecidableEq

/-- The wording of an error in hexadecimal bytes. -/
def hexMessage : HexError → String
  | .notADigit c => "payload hex contains " ++ Text.quotedChar c ++ ", which is not a hex digit"
  | .oddLength => "payload hex has an odd number of digits"
  | .cutCharacter => "payload hex is cut inside a character"
  | .badByte piece _ => "bad hex byte " ++ Text.quoted piece

/-- What brought an error in hexadecimal bytes about. -/
def hexCauses : HexError → List String
  | .badByte _ error => [error.message]
  | _ => []

/-- The lines that explain how the command is called. -/
def usage : String := "usage: dsdl_rules [--frame CAN_ID PAYLOAD] ROOT [FILTER]\n"

/-- A text whose lines are indented, the first one by `first` and the others by `rest`. -/
def indented (first rest text : String) : String :=
  first ++ Text.join ("\n" ++ rest) (Text.split '\n' text)

/-- A cause with its number in front of it. -/
def numberedCause (cause : String × Nat) : String :=
  let number := toString cause.2
  let padding := String.ofList (List.replicate (5 - number.length) ' ')
  indented (padding ++ number ++ ": ") "       " cause.1

/-- The paragraph about what brought an error about; several causes are numbered. -/
def causeText : List String → String
  | [] => ""
  | [cause] => "\nCaused by:\n" ++ indented "    " "    " cause ++ "\n"
  | causes => "\nCaused by:\n" ++ Text.join "\n" (causes.zipIdx.map numberedCause) ++ "\n"

/-- The report of a run that failed. -/
def failure (text : String) (causes : List String) : Report :=
  { code := 1, errors := "Error: " ++ text ++ "\n" ++ causeText causes }

/-- The report on wrong arguments. -/
def ArgumentError.report : ArgumentError → Report
  | frameOperands => failure "--frame needs a CAN id and a payload" []
  | identifier text error => failure ("bad CAN id " ++ Text.quoted text) [error.message]
  -- A cut inside a character would end the run at once, and not as an error.
  | payload .cutCharacter => { code := 101, errors := hexMessage .cutCharacter ++ "\n" }
  | payload error => failure (hexMessage error) (hexCauses error)
  | noRoot => { code := 2, errors := usage }

/-- A frame as given on the command line. -/
structure FrameArgument where
  identifier : Nat
  bytes : Bytes
deriving DecidableEq

/-- What the command is asked to do. -/
structure Request where
  /-- The frame to decode in place of the listing. -/
  frame : Option FrameArgument := none
  root : String
  /-- What the names of listed definitions have to contain. -/
  filter : String := ""
deriving DecidableEq

/-- A text without the marks `0` and `letter` at its start, however many there are. -/
def dropMarks (letter : Char) : List Char → List Char
  | '0' :: c :: rest => if c = letter then dropMarks letter rest else '0' :: c :: rest
  | text => text

/-- Reads a hexadecimal identifier below `2 ^ 32`. -/
def readIdentifier (text : String) : Except ArgumentError Nat :=
  (Numeral.read 16 limit32 (dropMarks 'X' (dropMarks 'x' text.toList))).mapError
    (.identifier text)

/-- The option that asks for a frame to be decoded. -/
def frameOption : String := "--frame"

namespace Request

/-- Reads the frame option with its operands. -/
def readFrame (identifier payload : String) : Except ArgumentError FrameArgument := do
  let id ← readIdentifier identifier
  let bytes ← (Hex.decode payload.toList).mapError .payload
  return ⟨id, bytes.toArray⟩

/-- Reads the arguments other than the frame option. -/
def readOperands (frame : Option FrameArgument) : List String → Except ArgumentError Request
  | [] => .error .noRoot
  | [root] => .ok ⟨frame, root, ""⟩
  | root :: filter :: _ => .ok ⟨frame, root, filter⟩

/-- Reads the arguments; the frame option can stand anywhere. -/
def read (arguments : List String) : Except ArgumentError Request :=
  let before := arguments.takeWhile (· ≠ frameOption)
  match arguments.dropWhile (· ≠ frameOption) with
  | [] => readOperands none before
  | _ :: identifier :: payload :: after => do
    readOperands (some (← readFrame identifier payload)) (before ++ after)
  | _ => .error .frameOperands

end Request

/-- The channel on a line of its own. -/
def channelLine (c : Channel) : String :=
  let text :=
    if c.isVoid then "void" ++ toString c.width
    else c.kind.name ++ toString c.width ++ " " ++ c.name
  let array := match c.capacity with
    | some capacity =>
      if c.isVoid then ""
      else " [<=" ++ toString capacity ++ "] (+" ++ toString c.countWidth ++ " bit count)"
    | none => ""
  "    " ++ text ++ array ++ "\n"

/-- The greatest number of bits of the channels together, as a 32-bit number. -/
def totalBits (channels : List Channel) : Nat :=
  saturate32 (total (channels.map Channel.greatest))

/-- The channels, one a line. -/
def channelLines (channels : List Channel) : String := String.join (channels.map channelLine)

/-- The length of channels, as it stands behind their heading. -/
def lengthText (channels : List Channel) : String :=
  " (" ++ toString (totalBits channels) ++ " bits max)\n"

/-- A message with its channels. -/
def messageText (m : MessageLayout) : String :=
  "message " ++ toString m.subjectId ++ " " ++ m.name ++ lengthText m.channels ++
    channelLines m.channels

/-- A service with the channels of both sides. -/
def serviceText (s : ServiceLayout) : String :=
  "service " ++ toString s.subjectId ++ " " ++ s.name ++ "\n" ++
    "  request" ++ lengthText s.request ++ channelLines s.request ++
    "  response" ++ lengthText s.response ++ channelLines s.response

/-- The layouts whose names contain the filter, messages first. -/
def listing (catalogue : Catalogue) (filter : String) : String :=
  let wanted (name : String) := Text.occursIn filter.toList name.toList
  String.join ((catalogue.messages.filter fun m => wanted m.name).map messageText) ++
    String.join ((catalogue.services.filter fun s => wanted s.name).map serviceText)

/-- A transfer with its values in the order of their names. -/
def transferText (t : Transfer) : String :=
  t.name ++ " (id " ++ toString t.subjectId ++ ", source " ++ toString t.source ++ ")\n" ++
    String.join (t.values.sorted.map fun (name, value) =>
      "    " ++ name ++ " = " ++ value.text ++ "\n")

/-- What the decoding of a frame prints. -/
def frameReport [HalfConversion] (catalogue : Catalogue) (frame : FrameArgument) : Report :=
  let received := (Receiver.ofCatalogue catalogue).receive frame.identifier frame.bytes 0
  match received.result with
  | .error e => failure e.message []
  | .ok none =>
    { errors := "frame produced no transfer (multi-frame part or unknown id)\n" }
  | .ok (some t) => { output := transferText t }

/-- What the command prints for a file tree. -/
def Request.report [HalfConversion] (request : Request) (tree : FileTree) : Report :=
  match (TypeTable.ofTree tree (Path.ofText request.root)).bind Catalogue.ofTable with
  | .error e => failure ("loading " ++ request.root) e.causes
  | .ok catalogue =>
    match request.frame with
    | some frame => frameReport catalogue frame
    | none => { output := listing catalogue request.filter }

end CommandLine

end BusSchema
