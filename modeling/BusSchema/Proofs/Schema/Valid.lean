import BusSchema.Proofs.Results
import BusSchema.Proofs.Schema.Notation
import BusSchema.Proofs.Schema.Triple
import Mathlib.Data.List.Induction

/-!
# Valid definitions

What every definition satisfies that is put together from the lines of a file, relative to the
table that its references lead into: its compound types are messages of that table, its arrays can
be measured, its names are different from each other, and the greatest lengths of its fields have a
32-bit sum.  Nothing of this is lost while the table grows (`Definition.Valid.grows`).

A table is built by adding valid definitions under new names (`TypeTable.Built`).
-/

namespace BusSchema

/-! ## Lists that are computed row by row -/

/-- The list with one row for each item, computed from the rows before it. -/
def rowsOf {α β : Type} (row : List β → α → β) (items : List α) : List β :=
  items.foldl (fun rows a => rows ++ [row rows a]) []

section Rows

variable {α β : Type} {row : List β → α → β}

theorem rowsOf_concat (items : List α) (a : α) :
    rowsOf row (items ++ [a]) = rowsOf row items ++ [row (rowsOf row items) a] := by
  rw [rowsOf, List.foldl_append]
  rfl

theorem length_rowsOf (items : List α) : (rowsOf row items).length = items.length := by
  induction items using List.reverseRecOn with
  | nil => rfl
  | append_singleton items a ih =>
    rw [rowsOf_concat, List.length_append, List.length_append, ih]
    rfl

/-- Every row is computed from the rows in front of it. -/
theorem getElem?_rowsOf {items : List α} {i : Nat} {a : α} (h : items[i]? = some a) :
    (rowsOf row items)[i]? = some (row ((rowsOf row items).take i) a) := by
  induction items using List.reverseRecOn with
  | nil => cases h
  | append_singleton items last ih =>
    have hlength : (rowsOf row items).length = items.length := length_rowsOf items
    rw [rowsOf_concat]
    rcases Nat.lt_trichotomy i items.length with hi | rfl | hi
    · rw [List.getElem?_append_left hi] at h
      rw [List.getElem?_append_left (hlength ▸ hi), ih h,
        List.take_append_of_le_length (Nat.le_of_lt (hlength ▸ hi))]
    · rw [List.getElem?_concat_length] at h
      cases h
      rw [← hlength, List.getElem?_concat_length, List.take_left]
    · have hlast := (List.getElem?_eq_some_iff.mp h).1
      rw [List.length_append, List.length_singleton] at hlast
      omega

theorem rowsOf_mono {items later : List α} (h : items <+: later) :
    rowsOf row items <+: rowsOf row later := by
  obtain ⟨added, rfl⟩ := h
  induction added using List.reverseRecOn with
  | nil => exact (List.append_nil items).symm ▸ List.prefix_refl (rowsOf row items)
  | append_singleton added a ih =>
    rw [← List.append_assoc, rowsOf_concat]
    exact ih.trans (List.prefix_append _ _)

end Rows

theorem getElem?_of_isPrefix {α : Type} {earlier later : List α} (h : earlier <+: later)
    {i : Nat} (hi : i < earlier.length) : later[i]? = earlier[i]? := by
  obtain ⟨added, rfl⟩ := h
  exact List.getElem?_append_left hi

namespace TypeTable

theorem spans_eq_rowsOf (table : TypeTable) :
    table.spans = rowsOf Span.measure table.definitions := table.spans_eq

theorem length_spans (table : TypeTable) : table.spans.length = table.size := by
  rw [spans_eq_rowsOf, length_rowsOf]
  rfl

theorem contains_push {table : TypeTable} {d : Definition} (h : table.Accepts d) (name : String) :
    (table.push d h).2.contains name = (table.contains name || decide (d.name = name)) := by
  unfold contains TypeTable.find?
  rw [definitions_push, List.findIdx?_append]
  cases htable : table.definitions.findIdx? (·.name = name) with
  | some i => rfl
  | none => by_cases hname : d.name = name <;> simp [hname]

variable {a b : TypeTable} (hab : a.Grows b)

include hab

theorem Grows.getElem? {i : Nat} {d : Definition} (h : a.definitions[i]? = some d) :
    b.definitions[i]? = some d := by
  have hi := (List.getElem?_eq_some_iff.mp h).1
  rw [getElem?_of_isPrefix hab hi, h]

theorem Grows.spanAt {i : Nat} (hi : i < a.size) :
    BusSchema.spanAt b.spans i = BusSchema.spanAt a.spans i := by
  have hspans : a.spans <+: b.spans := by
    rw [spans_eq_rowsOf, spans_eq_rowsOf]
    exact rowsOf_mono hab
  unfold BusSchema.spanAt
  rw [getElem?_of_isPrefix hspans (by rwa [length_spans])]

/-- A name that was found is found at the same position. -/
theorem Grows.find? {name : String} {i : Nat} (h : a.find? name = some i) :
    b.find? name = some i := by
  obtain ⟨added, hadded⟩ := hab
  unfold TypeTable.find? at h ⊢
  rw [← hadded, List.findIdx?_append, h]
  rfl

end TypeTable

/-! ## Types -/

theorem Primitive.width_le (p : Primitive) : p.width ≤ maxValueWidth := by
  have hallowed := p.allowed
  have hmax : maxValueWidth = 64 := rfl
  cases hkind : p.kind <;> rw [hkind] at hallowed <;> simp only [ScalarKind.AllowsWidth] at hallowed
  all_goals omega

namespace FieldType

/-- The type may be that of the elements of an array. -/
def IsElement : FieldType → Prop
  | primitive _ => True
  | compound _ => True
  | padding _ => False
  | array _ _ _ => False

/--
A compound type is a message of the table.  An array has elements of a valid type, at least one and
not more than a 32-bit number of them, and a greatest length.
-/
def Valid (table : TypeTable) : FieldType → Prop
  | primitive _ => True
  | padding _ => True
  | compound id => ∃ d, table.definitions[id]? = some d ∧ d.isService = false
  | array element mode size =>
    element.IsElement ∧ element.Valid table ∧ 1 ≤ size ∧ size ≤ max32 ∧
      ((array element mode size).greatest? table).isSome

/-- An array is as long as its elements and its count, which all have a 32-bit number of bits. -/
theorem array_greatest?_eq_some {table : TypeTable} {element : FieldType} {mode : ArrayMode}
    {size length : Nat}
    (h : (array element mode size).greatest? table = some length) :
    ∃ each, element.greatest? table = some each ∧
      size * each + countWidth mode size ≤ max32 ∧
      length = size * each + countWidth mode size := by
  obtain ⟨each, heach, hrest⟩ := Option.bind_eq_some_iff.mp h
  obtain ⟨all, hall, hwhole⟩ := Option.bind_eq_some_iff.mp hrest
  obtain ⟨rfl, -⟩ := fit32?_eq_some_iff.mp hall
  obtain ⟨rfl, hfits⟩ := fit32?_eq_some_iff.mp hwhole
  exact ⟨each, heach, hfits, rfl⟩

/-- The forms of a valid type. -/
theorem Valid.elim {table : TypeTable} {motive : (type : FieldType) → type.Valid table → Prop}
    (padding : ∀ p h, motive (.padding p) h) (primitive : ∀ p h, motive (.primitive p) h)
    (compound : ∀ id h, motive (.compound id) h)
    (primitives : ∀ p mode size h, motive (.array (.primitive p) mode size) h)
    (compounds : ∀ id mode size h, motive (.array (.compound id) mode size) h)
    (type : FieldType) (h : type.Valid table) : motive type h := by
  cases type with
  | padding p => exact padding p h
  | primitive p => exact primitive p h
  | compound id => exact compound id h
  | array element mode size =>
    cases element with
    | padding p => exact h.1.elim
    | array inner innerMode innerSize => exact h.1.elim
    | primitive p => exact primitives p mode size h
    | compound id => exact compounds id mode size h

variable {a b : TypeTable} (hab : a.Grows b)

include hab

theorem Valid.greatest?_grows {type : FieldType} (h : type.Valid a) :
    type.greatest? b = type.greatest? a := by
  unfold greatest?
  induction type with
  | primitive p => rfl
  | padding p => rfl
  | compound id =>
    obtain ⟨d, hd, -⟩ := h
    have hid : id < a.size := (List.getElem?_eq_some_iff.mp hd).1
    rw [greatestWith, greatestWith, hab.spanAt hid]
  | array element mode size ih => rw [greatestWith, greatestWith, ih h.2.1]

theorem Valid.greatest_grows {type : FieldType} (h : type.Valid a) :
    type.greatest b = type.greatest a := by
  rw [greatest, greatest, h.greatest?_grows hab]

theorem Valid.grows {type : FieldType} (h : type.Valid a) : type.Valid b := by
  induction type with
  | primitive p => trivial
  | padding p => trivial
  | compound id =>
    obtain ⟨d, hd, hservice⟩ := h
    exact ⟨d, hab.getElem? hd, hservice⟩
  | array element mode size ih =>
    have hlength := h.greatest?_grows hab
    obtain ⟨helement, hvalid, hsize, hmax, hsome⟩ := h
    refine ⟨helement, ih hvalid, hsize, hmax, ?_⟩
    rw [hlength]
    exact hsome

end FieldType

/-! ## Sections and definitions -/

/-- Padding has no name, and any other field has a name of the notation. -/
def Field.Named (f : Field) : Prop :=
  if f.type.isPadding then f.name = "" else Statement.IsName f.name

namespace Section

/-- The names of the fields and constants; padding has none. -/
def names (s : Section) : List String :=
  (s.fields.map Field.name ++ s.constants.map Constant.name).filter (· ≠ "")

/-- What the lines of a section keep true of it, relative to the table of its references. -/
structure Valid (table : TypeTable) (s : Section) : Prop where
  types : ∀ f ∈ s.fields, f.type.Valid table
  named : ∀ f ∈ s.fields, f.Named
  distinct : s.names.Nodup
  measured : ∀ f ∈ s.fields, (f.type.greatest? table).isSome
  bounded : total (s.fields.map fun f => f.type.greatest table) ≤ max32

theorem Valid.lengths_grows {a b : TypeTable} (hab : a.Grows b) {s : Section}
    (h : s.Valid a) : s.fields.map (fun f => f.type.greatest b) =
      s.fields.map fun f => f.type.greatest a :=
  List.map_congr_left fun f hf => (h.types f hf).greatest_grows hab

theorem Valid.grows {a b : TypeTable} (hab : a.Grows b) {s : Section} (h : s.Valid a) :
    s.Valid b where
  types := fun f hf => (h.types f hf).grows hab
  named := h.named
  distinct := h.distinct
  measured := by
    intro f hf
    rw [(h.types f hf).greatest?_grows hab]
    exact h.measured f hf
  bounded := by
    rw [h.lengths_grows hab]
    exact h.bounded

end Section

namespace Definition

/-- Both sections are valid. -/
def Valid (table : TypeTable) (d : Definition) : Prop := ∀ s ∈ d.sections, s.Valid table

theorem Valid.grows {a b : TypeTable} (hab : a.Grows b) {d : Definition} (h : d.Valid a) :
    d.Valid b :=
  fun s hs => (h s hs).grows hab

end Definition

/-! ## Tables -/

namespace TypeTable

/-- The table was made by adding valid definitions. -/
inductive Built : TypeTable → Prop
  | empty : Built {}
  | push {table : TypeTable} {d : Definition} (htable : Built table) (hd : d.Valid table)
      (haccepts : table.Accepts d) : Built (table.push d haccepts).2

theorem mem_push_iff {table : TypeTable} {d other : Definition} {h : table.Accepts d} :
    other ∈ (table.push d h).2.definitions ↔ other ∈ table.definitions ∨ other = d := by
  rw [definitions_push, List.mem_append, List.mem_singleton]

theorem Built.valid {table : TypeTable} (htable : table.Built) {d : Definition}
    (hd : d ∈ table.definitions) : d.Valid table := by
  induction htable with
  | empty => cases hd
  | push _ hnext _ ih =>
    rcases mem_push_iff.mp hd with hd | rfl
    · exact (ih hd).grows (grows_push _)
    · exact hnext.grows (grows_push _)

end TypeTable

end BusSchema
