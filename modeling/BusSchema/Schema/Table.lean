import BusSchema.Schema.Length

/-!
# Type tables

A type table holds the definitions that were read so far, each under a name of its own and after the
definitions that it refers to, and the span of each of them.  The position of a definition is a
handle that only means something in this table and in those that it grows into, so it is there
before a definition can refer to it.  `TypeTable.push` is the only operation that adds a definition,
and measures it then; it needs to know that the table accepts the definition.

The main statement is `TypeTable.eq_of_definitions`: a table is determined by its definitions.
-/

namespace BusSchema

/-- The names of the definitions are different from each other. -/
def Definition.Distinct (definitions : List Definition) : Prop :=
  (definitions.map Definition.name).Nodup

/-- Definitions refer to definitions before them only. -/
def Definition.Backward (definitions : List Definition) : Prop :=
  ∀ (i : Nat) (d : Definition), definitions[i]? = some d → ∀ id ∈ d.references, id < i

/-- Definitions with their spans. -/
structure TypeTable where
  /-- The definitions, in the order in which they were added. -/
  definitions : List Definition := []
  /-- The span of each definition. -/
  spans : List Span := []
  /-- The spans are those of the definitions. -/
  spans_eq : spans = Span.measureAll definitions := by rfl
  distinct : Definition.Distinct definitions := by exact List.nodup_nil
  backward : Definition.Backward definitions := by exact fun _ _ h => nomatch h

namespace TypeTable

/-- The table without definitions. -/
abbrev empty : TypeTable := {}

theorem eq_of_definitions {a b : TypeTable} (h : a.definitions = b.definitions) : a = b := by
  have hspans : a.spans = b.spans := by rw [a.spans_eq, b.spans_eq, h]
  cases a
  cases b
  simp_all

/-- The position of the definition with a name. -/
def find? (table : TypeTable) (name : String) : Option Nat :=
  table.definitions.findIdx? (·.name = name)

/-- The definition with a name. -/
def get? (table : TypeTable) (name : String) : Option Definition :=
  table.definitions.find? (·.name = name)

/-- There is a definition with the name. -/
def contains (table : TypeTable) (name : String) : Bool := (table.find? name).isSome

/-- The number of definitions. -/
def size (table : TypeTable) : Nat := table.definitions.length

theorem contains_eq_false_iff {table : TypeTable} {name : String} :
    table.contains name = false ↔ ∀ d ∈ table.definitions, d.name ≠ name := by
  unfold contains TypeTable.find?
  simp

/-- The definition can be added: its name is new, and it refers to definitions of the table only. -/
structure Accepts (table : TypeTable) (d : Definition) : Prop where
  fresh : table.contains d.name = false
  resolved : ∀ id ∈ d.references, id < table.size

instance (table : TypeTable) (d : Definition) : Decidable (table.Accepts d) :=
  decidable_of_iff (table.contains d.name = false ∧ ∀ id ∈ d.references, id < table.size)
    ⟨fun ⟨hfresh, hresolved⟩ => ⟨hfresh, hresolved⟩, fun h => ⟨h.fresh, h.resolved⟩⟩

variable {table : TypeTable} {d : Definition}

theorem Accepts.distinct (h : table.Accepts d) :
    Definition.Distinct (table.definitions ++ [d]) := by
  unfold Definition.Distinct
  rw [List.map_append, List.nodup_append]
  refine ⟨table.distinct, List.pairwise_singleton _ _, ?_⟩
  intro name hname last hlast
  obtain ⟨other, hother, rfl⟩ := List.mem_map.mp hname
  rw [List.mem_singleton.mp hlast]
  exact contains_eq_false_iff.mp h.fresh other hother

theorem Accepts.backward (h : table.Accepts d) :
    Definition.Backward (table.definitions ++ [d]) := by
  intro i other hother id hid
  rw [List.getElem?_append] at hother
  split at hother
  · exact table.backward i other hother id hid
  · next hlast =>
    have hi := List.mem_of_getElem? hother
    rw [List.mem_singleton.mp hi] at hid
    exact Nat.lt_of_lt_of_le (h.resolved id hid) (Nat.le_of_not_lt hlast)

/-- The table with a definition added at its end, and the position of that definition. -/
def push (table : TypeTable) (d : Definition) (h : table.Accepts d) : Nat × TypeTable :=
  (table.size,
    { definitions := table.definitions ++ [d]
      spans := table.spans ++ [Span.measure table.spans d]
      spans_eq := by rw [Span.measureAll_concat, ← table.spans_eq]
      distinct := h.distinct
      backward := h.backward })

/-- Adds a definition that the table accepts. -/
def insert? (table : TypeTable) (d : Definition) : Option (Nat × TypeTable) :=
  if h : table.Accepts d then some (table.push d h) else none

@[simp]
theorem definitions_push (h : table.Accepts d) :
    (table.push d h).2.definitions = table.definitions ++ [d] := rfl

end TypeTable

/-- The type in schema notation; compound types are written by name. -/
def FieldType.spelling (table : TypeTable) : FieldType → String
  | .primitive p => p.spelling
  | .padding p => p.spelling
  | .compound id => ((table.definitions[id]?).map Definition.name).getD ""
  | .array element .static size =>
    element.spelling table ++ "[" ++ toString size ++ "]"
  | .array element .dynamic size =>
    element.spelling table ++ "[<=" ++ toString size ++ "]"

/-- The field in schema notation. -/
def Field.spelling (table : TypeTable) (f : Field) : String :=
  if f.type.isPadding then f.type.spelling table
  else f.type.spelling table ++ " " ++ f.name

namespace FieldType

/-- The greatest length of a type, if it is below `2 ^ 32`. -/
def greatest? (table : TypeTable) (type : FieldType) : Option Nat :=
  type.greatestWith table.spans

/-- The greatest length of a type, or the largest 32-bit number if it is above that. -/
def greatest (table : TypeTable) (type : FieldType) : Nat :=
  (type.greatest? table).getD max32

/-- The least length of a type. -/
def least (table : TypeTable) (type : FieldType) : Nat := type.leastWith table.spans

end FieldType

namespace Section

/-- The greatest length of a section, if it is below `2 ^ 32`. -/
def greatest? (table : TypeTable) (s : Section) : Option Nat := s.greatestWith table.spans

/-- The greatest length of a section, or the largest 32-bit number if it is above that. -/
def greatest (table : TypeTable) (s : Section) : Nat := (s.greatest? table).getD max32

/-- The least length of a section. -/
def least (table : TypeTable) (s : Section) : Nat := s.leastWith table.spans

end Section

end BusSchema
