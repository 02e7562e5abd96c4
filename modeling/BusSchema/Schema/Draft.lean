import BusSchema.Schema.Fault
import BusSchema.Schema.Statement
import BusSchema.Schema.Table

/-!
# Drafts of definitions

A definition is put together line by line.  A section draft keeps track of the bits that its
fields take so far: compound fields start and end on a byte boundary, so padding is put in before
and behind them, and no section may need more bits than a 32-bit number counts.  The names of
fields and constants of a section are different from each other.
-/

namespace BusSchema

/-- A section that is being put together. -/
structure SectionDraft where
  fields : List Field := []
  constants : List Constant := []
  isUnion : Bool := false
  /-- The sum of the greatest lengths of the fields. -/
  offset : Nat := 0

namespace SectionDraft

/-- The number of bits from an offset to the next byte boundary. -/
def gap (offset : Nat) : Nat := (8 - offset % 8) % 8

/-- The draft with padding up to the next byte boundary. -/
def align (draft : SectionDraft) : Except LineFault SectionDraft :=
  match Padding.ofWidth (gap draft.offset) with
  | .error _ => .ok draft
  | .ok padding =>
    match fit32? (draft.offset + padding.width) with
    | none => .error .paddingOverflow
    | some offset =>
      .ok { draft with fields := draft.fields ++ [Field.ofPadding padding], offset }

/-- The draft with a field, and no padding around it. -/
def append (table : TypeTable) (draft : SectionDraft) (field : Field) :
    Except LineFault SectionDraft :=
  match (field.type.greatest? table).bind fun length => fit32? (draft.offset + length) with
  | none => .error (.fieldOverflow field.name)
  | some offset => .ok { draft with fields := draft.fields ++ [field], offset }

/-- The draft with a field, and padding before and behind it if it is compound. -/
def pushField (table : TypeTable) (draft : SectionDraft) (field : Field) :
    Except LineFault SectionDraft :=
  if field.type.isCompound then do
    let aligned ← draft.align
    let appended ← aligned.append table field
    appended.align
  else draft.append table field

/-- The finished section. -/
def toSection (draft : SectionDraft) : Section :=
  ⟨draft.fields, draft.constants, draft.isUnion⟩

end SectionDraft

/-- A field or a constant. -/
inductive Attribute
  | field (field : Field)
  | constant (constant : Constant)
deriving DecidableEq

namespace Attribute

/-- The name of the attribute, empty for padding. -/
def name : Attribute → String
  | field f => f.name
  | constant c => c.name

end Attribute

/-- A file that is being put together. -/
structure DefinitionDraft where
  request : SectionDraft := {}
  /-- The response, from the separator on. -/
  response : Option SectionDraft := none
  /-- The names of the section that is being put together. -/
  names : List String := []

namespace DefinitionDraft

/-- The section that is being put together. -/
def current (draft : DefinitionDraft) : SectionDraft := draft.response.getD draft.request

/-- The draft with another section in place of the one that is being put together. -/
def setCurrent (draft : DefinitionDraft) (s : SectionDraft) : DefinitionDraft :=
  match draft.response with
  | some _ => { draft with response := some s }
  | none => { draft with request := s }

/-- Starts the response. -/
def separate (draft : DefinitionDraft) : Except LineFault DefinitionDraft :=
  match draft.response with
  | some _ => .error .repeatedSeparator
  | none => .ok { draft with response := some {}, names := [] }

/-- Follows a directive; only the one for unions has an effect. -/
def direct (draft : DefinitionDraft) (name : String) (hasArgument : Bool) :
    Except LineFault DefinitionDraft :=
  if name = "union" ∧ hasArgument = false then
    .ok (draft.setCurrent { draft.current with isUnion := true })
  else if name = "assert" ∨ (name = "sealed" ∧ hasArgument = false) then .ok draft
  else .error (.unknownDirective name)

/-- The draft with the name of an attribute noted; padding has no name. -/
def noteName (draft : DefinitionDraft) (name : String) : Except LineFault DefinitionDraft :=
  if name = "" then .ok draft
  else if name ∈ draft.names then .error (.repeatedName name)
  else .ok { draft with names := name :: draft.names }

/-- The draft with an attribute added to the section that is being put together. -/
def push (table : TypeTable) (draft : DefinitionDraft) (attr : Attribute) :
    Except LineFault DefinitionDraft := do
  let noted ← draft.noteName attr.name
  match attr with
  | .constant c =>
    return noted.setCurrent
      { noted.current with constants := noted.current.constants ++ [c] }
  | .field f => return noted.setCurrent (← noted.current.pushField table f)

/-- The finished definition. -/
def finish (draft : DefinitionDraft) (name : String) (header : FileName) : Definition where
  name
  version := header.version
  subjectId := header.subjectId
  request := draft.request.toSection
  response := draft.response.map SectionDraft.toSection

end DefinitionDraft

/-- A number as written, if it is a 32-bit number. -/
def readNumber (digits : String) : Except LineFault Nat :=
  match Numeral.read32? digits with
  | some n => .ok n
  | none => .error (.numberOutOfRange digits)

namespace BoundExpr

/-- The mode and the declared number of elements of an array. -/
def elaborate (bound : BoundExpr) : Except LineFault (ArrayMode × Nat) := do
  let (mode, size) ← match bound with
    | atMost digits => do pure (ArrayMode.dynamic, ← readNumber digits)
    | below digits => do pure (ArrayMode.dynamic, (← readNumber digits) - 1)
    | exactly digits => do pure (ArrayMode.static, ← readNumber digits)
  if size = 0 then throw .emptyArray else return (mode, size)

end BoundExpr

namespace FieldType

/-- Padding of a width as written. -/
def readPadding (digits : String) : Except LineFault FieldType := do
  let width ← readNumber digits
  (Padding.ofWidth width).map .padding |>.mapError .width

/-- A numeric type of a width as written. -/
def readNumeric (kind : ScalarKind) (digits : String) (cast : CastMode) :
    Except LineFault FieldType :=
  match Numeral.read32? digits with
  | none => .error .unreadableWidth
  | some width => (Primitive.ofWidth kind width cast).map .primitive |>.mapError .width

/-- An array with a bound as written, if its greatest length is a 32-bit number. -/
def makeArray (table : TypeTable) (element : FieldType) (bound : BoundExpr) :
    Except LineFault FieldType := do
  if element.isPadding then throw .paddingElement
  let (mode, size) ← bound.elaborate
  let type := FieldType.array element mode size
  match type.greatest? table with
  | none => throw (.arrayOverflow (type.spelling table))
  | some _ => return type

end FieldType

namespace Constant

/-- A constant of the given type, whose literal has to denote a value of that type. -/
def make (name : String) (type : FieldType) (written : String) : Except LineFault Constant :=
  match type with
  | .primitive p => do
    let literal := String.ofList (Text.dropBlanks written.toList)
    let value ← (Literal.read p.kind literal).mapError .literal
    let (least, greatest) := p.range
    if value.toDouble.lt least || greatest.lt value.toDouble then
      throw (.constantRange name literal p.spelling)
    else return ⟨name, p, value, literal⟩
  | _ => .error (.constantType name)

end Constant

namespace Attribute

/-- The attribute that is meant, once its type is known. -/
def make (type : FieldType) (name literal : Option String) : Except LineFault Attribute :=
  match name, literal with
  | none, _ =>
    match type with
    | .padding p => .ok (.field (Field.ofPadding p))
    | _ => .error .unnamedField
  | some name, literal =>
    if type.isPadding then .error (.namedPadding name)
    else
      match literal with
      | some literal => (Constant.make name type literal).map .constant
      | none => .ok (.field ⟨name, type⟩)

end Attribute

end BusSchema
