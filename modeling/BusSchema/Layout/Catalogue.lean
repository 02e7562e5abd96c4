import BusSchema.Layout.Channel
import BusSchema.Schema.Fault

/-!
# The catalogue of layouts

The layouts of all definitions that are sent on the bus on their own, found by subject id or by
name.  Messages and services have separate subject ids, and within either kind an id belongs to
one definition.
-/

namespace BusSchema

/-- How a message is laid out. -/
structure MessageLayout where
  subjectId : Nat
  name : String
  channels : List Channel
deriving DecidableEq

/-- How the two sides of a service are laid out. -/
structure ServiceLayout where
  subjectId : Nat
  name : String
  request : List Channel
  response : List Channel
deriving DecidableEq

/-- Layouts of messages and of services, each in the order of their subject ids. -/
structure Catalogue where
  messages : List MessageLayout := []
  services : List ServiceLayout := []
deriving DecidableEq

/-- Puts an item into a list that is ordered by a key, before items with larger keys. -/
def insertByKey {α : Type} (key : α → Nat) (a : α) : List α → List α
  | [] => [a]
  | b :: rest => if key a < key b then a :: b :: rest else b :: insertByKey key a rest

namespace Catalogue

/-- The layout of the message with a subject id. -/
def message? (catalogue : Catalogue) (id : Nat) : Option MessageLayout :=
  catalogue.messages.find? (·.subjectId = id)

/-- The layout of the service with a subject id. -/
def service? (catalogue : Catalogue) (id : Nat) : Option ServiceLayout :=
  catalogue.services.find? (·.subjectId = id)

/-- The layout of the message with a name. -/
def messageNamed? (catalogue : Catalogue) (name : String) : Option MessageLayout :=
  catalogue.messages.find? (·.name = name)

/-- The layout of the service with a name. -/
def serviceNamed? (catalogue : Catalogue) (name : String) : Option ServiceLayout :=
  catalogue.services.find? (·.name = name)

/-- The layout of a definition without a response. -/
def messageLayout (compounds : List Template) (d : Definition) : MessageLayout :=
  ⟨d.subjectId, d.name, flattenFields compounds d.request.fields d.name⟩

/-- The layout of a definition with the given response. -/
def serviceLayout (compounds : List Template) (d : Definition) (response : Section) :
    ServiceLayout :=
  ⟨d.subjectId, d.name, flattenFields compounds d.request.fields d.name,
    flattenFields compounds response.fields d.name⟩

/-- The catalogue with the layout of one more definition, if that is routable. -/
def add (compounds : List Template) (catalogue : Catalogue) (d : Definition) :
    Except SchemaError Catalogue :=
  if !d.isRoutable then .ok catalogue
  else
    match d.response with
    | none =>
      match catalogue.message? d.subjectId with
      | some first => .error (.duplicateSubject false d.subjectId first.name d.name)
      | none =>
        let layout := messageLayout compounds d
        .ok { catalogue with
          messages := insertByKey MessageLayout.subjectId layout catalogue.messages }
    | some response =>
      match catalogue.service? d.subjectId with
      | some first => .error (.duplicateSubject true d.subjectId first.name d.name)
      | none =>
        let layout := serviceLayout compounds d response
        .ok { catalogue with
          services := insertByKey ServiceLayout.subjectId layout catalogue.services }

/-- The layouts of all routable definitions of a table. -/
def ofTable (table : TypeTable) : Except SchemaError Catalogue :=
  table.definitions.foldlM (add table.templates) {}

/-- The number of bytes that hold the longest payload of the channels. -/
def payloadBytes (channels : List Channel) : Nat :=
  (total (channels.map Channel.greatest) + 7) / 8

/-- The number of bytes that hold the longest payload of any layout. -/
def maxPayloadBytes (catalogue : Catalogue) : Nat :=
  let messages := catalogue.messages.map fun m => payloadBytes m.channels
  let services := catalogue.services.flatMap fun s =>
    [payloadBytes s.request, payloadBytes s.response]
  maximum (messages ++ services)

/-- The catalogue holds no layout. -/
def isEmpty (catalogue : Catalogue) : Bool :=
  catalogue.messages.isEmpty && catalogue.services.isEmpty

end Catalogue

end BusSchema
