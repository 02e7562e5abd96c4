import BusSchema.Schema.Definition

/-!
# Names of schema files

The base name of a schema file is `[<subject id>.]<name>[.<major>.<minor>].uavcan`.  It gives the
last segment of the definition's name, its subject id (zero if absent) and its version.
-/

namespace BusSchema

/-- What the base name of a schema file says. -/
structure FileName where
  name : String
  subjectId : Nat := 0
  version : Version := {}
deriving DecidableEq

/-- What is wrong with a base name. -/
inductive FileNameFault
  /-- Another extension, or too many or too few parts. -/
  | notSchema
  /-- The subject id is no 32-bit number. -/
  | subjectId
  /-- The name is empty. -/
  | missingName
  /-- A number of the version is no 32-bit number. -/
  | version
deriving DecidableEq

namespace FileNameFault

/-- The wording of the fault for a base name. -/
def message (basename : String) (fault : FileNameFault) : String :=
  basename ++ match fault with
    | notSchema => ": only .uavcan files can be parsed"
    | subjectId => ": wrong data type id format, has to be an integer"
    | missingName => ": missing type name"
    | version => ": wrong version syntax, has to be X.Y"

end FileNameFault

namespace FileName

/-- The extension of schema files. -/
def extension : String := "uavcan"

/-- A file name without a version. -/
def unversioned (name : String) (subjectId : Nat) : Except FileNameFault FileName :=
  if name = "" then .error .missingName else .ok ⟨name, subjectId, {}⟩

/-- A file name with the two numbers of its version. -/
def versioned (name : String) (subjectId : Nat) (major minor : String) :
    Except FileNameFault FileName :=
  if name = "" then .error .missingName
  else
    match Numeral.read32? major, Numeral.read32? minor with
    | some major, some minor => .ok ⟨name, subjectId, ⟨major, minor⟩⟩
    | _, _ => .error .version

/-- Reads the number in front of a name. -/
def readSubjectId (text : String) : Except FileNameFault Nat :=
  match Numeral.read32? text with
  | some id => .ok id
  | none => .error .subjectId

/-- Reads the parts of a base name before its extension. -/
def ofParts : List String → Except FileNameFault FileName
  | [name] => unversioned name 0
  | [id, name] => do unversioned name (← readSubjectId id)
  | [name, major, minor] => versioned name 0 major minor
  | [id, name, major, minor] => do versioned name (← readSubjectId id) major minor
  | _ => .error .notSchema

/-- Reads a base name. -/
def read (basename : String) : Except FileNameFault FileName :=
  let items := Text.split '.' basename
  if items.getLast? = some extension then ofParts items.dropLast else .error .notSchema

end FileName

end BusSchema
