import BusSchema.Schema.FileName

/-!
# Faults of a schema

What can be wrong with a line of a schema file (`LineFault`), with a file or with the whole tree
(`SchemaError`).  Every fault is a cause; its wording is in one function for each of the types.
-/

namespace BusSchema

/-- What is wrong with a line of a schema file. -/
inductive LineFault
  /-- The line is no statement.  What the grammar would have accepted instead is left out. -/
  | malformed
  /-- A second separator between request and response. -/
  | repeatedSeparator
  | unknownDirective (name : String)
  /-- The section has an attribute of that name already. -/
  | repeatedName (name : String)
  /-- With the field the section needs more bits than a 32-bit number counts. -/
  | fieldOverflow (name : String)
  /-- With the padding around a compound field the section needs too many bits. -/
  | paddingOverflow
  | unnamedField
  | namedPadding (name : String)
  | paddingElement
  /-- A number that is no 32-bit number. -/
  | numberOutOfRange (digits : String)
  /-- A width that is no 32-bit number. -/
  | unreadableWidth
  | width (error : WidthError)
  /-- An array without elements. -/
  | emptyArray
  /-- An array that needs more bits than a 32-bit number counts. -/
  | arrayOverflow (type : String)
  /-- A reference that ends in a number without a number before it. -/
  | referenceVersion (reference : String)
  | unknownNamespace (nameSpace reference : String)
  | unknownDefinition (reference : String)
  /-- A definition that refers to one of those that it is being read for. -/
  | recursiveReference (chain : List String) (name : String)
  /-- Only another version than the wanted one is loaded. -/
  | otherVersion (reference : String) (wanted : Version) (name : String) (loaded : Version)
  /-- A service as the type of a field. -/
  | embeddedService (name : String)
  /-- A constant of a type that is not primitive. -/
  | constantType (name : String)
  | literal (error : LiteralError)
  /-- A constant outside the range of its type. -/
  | constantRange (name literal type : String)
deriving DecidableEq

namespace LineFault

/-- The wording of the fault. -/
def message : LineFault → String
  | malformed => "invalid syntax"
  | repeatedSeparator => "a file can only have one request/response separator"
  | unknownDirective name => "unknown directive @" ++ name
  | repeatedName name => "attribute name " ++ name ++ " is already registered"
  | fieldOverflow name =>
    "field " ++ name ++ " overflows the maximum bit length of a section"
  | paddingOverflow => "padding overflows the maximum bit length of a section"
  | unnamedField => "have you forgotten to name the field?"
  | namedPadding name => "void field " ++ name ++ " cannot be named"
  | paddingElement => "void cannot be used as an array element"
  | numberOutOfRange digits => "number " ++ digits ++ " out of range"
  | unreadableWidth => "invalid bit length"
  | width error => error.message
  | emptyArray => "syntax error on array definition, size has to be at least 1"
  | arrayOverflow type =>
    "array " ++ type ++ " is longer than " ++ toString max32 ++ " bits"
  | referenceVersion reference => "invalid version in reference " ++ reference
  | unknownNamespace nameSpace reference =>
    "unknown namespace (" ++ nameSpace ++ ") for " ++ reference
  | unknownDefinition reference => "unknown compound type " ++ reference
  | recursiveReference chain name =>
    "recursive type reference: " ++ Text.join " -> " chain ++ " -> " ++ name
  | otherVersion reference wanted name loaded =>
    reference ++ " asks for version " ++ wanted.spelling ++ " but " ++ name ++
      " is loaded at version " ++ loaded.spelling
  | embeddedService name =>
    "service type " ++ name ++ " cannot be embedded in another type"
  | constantType name => "constant " ++ name ++ " has to be a primitive type"
  | literal error => error.message
  | constantRange name value type =>
    "constant " ++ name ++ " = " ++ value ++ " is out of range for " ++ type

end LineFault

/-- What is wrong with a path or base name of a schema file. -/
inductive FileFault
  /-- The path ends in no name. -/
  | noFileName
  | fileName (basename : String) (fault : FileNameFault)
  /-- The path does not start with the root. -/
  | outsideRoot (root : String)
deriving DecidableEq

namespace FileFault

/-- The wording of the fault. -/
def message : FileFault → String
  | noFileName => "missing file name"
  | fileName basename fault => fault.message basename
  | outsideRoot root => "file is not under the DSDL root " ++ root

end FileFault

/-- Why a schema is refused. -/
inductive SchemaError
  | line (file : String) (number : Nat) (fault : LineFault)
  | file (file : String) (fault : FileFault)
  | rootNotFound (root : String)
  /-- The file tree refused an access. -/
  | unreadable (path reason : String)
  | duplicateName (name : String)
  /-- Two routable definitions of one kind share a subject id. -/
  | duplicateSubject (isService : Bool) (id : Nat) (first second : String)
  | unknownType (name : String)
deriving DecidableEq

namespace SchemaError

/-- The wording of the error. -/
def message : SchemaError → String
  | line path number fault => path ++ ":" ++ toString number ++ ": " ++ fault.message
  | file path fault => path ++ ": " ++ fault.message
  | rootNotFound root => "DSDL root " ++ root ++ " could not be found"
  | unreadable path reason => "failed to read " ++ path ++ ": " ++ reason
  | duplicateName name => "duplicate type name: " ++ name
  | duplicateSubject isService id first second =>
    "duplicate " ++ (if isService then "service" else "message") ++ " subject id " ++
      toString id ++ ": " ++ first ++ " and " ++ second
  | unknownType name => "unknown type: " ++ name

/-- The error and what brought it about, one wording each. -/
def causes (error : SchemaError) : List String :=
  match error with
  | unreadable _ reason => [error.message, reason]
  | _ => [error.message]

end SchemaError

end BusSchema
