import BusSchema.Proofs.Layout.Lengths
import Mathlib.Data.List.Forall2

/-!
# Definitions that differ in positions only

Two tables may hold the same definitions at different positions.  Two types are alike if they only
differ in the positions that they refer to, and these correspond (`FieldType.Alike`).  If the
definitions at corresponding positions have the same spans and templates, then definitions that are
alike have the same spans and channels too (`Definition.Alike.measure_eq`,
`Section.Alike.flattenFields_eq`).
-/

namespace BusSchema

variable {R : Nat → Nat → Prop}

/-- The types are the same but for positions that correspond. -/
inductive FieldType.Alike (R : Nat → Nat → Prop) : FieldType → FieldType → Prop
  | primitive (p : Primitive) : Alike R (.primitive p) (.primitive p)
  | padding (p : Padding) : Alike R (.padding p) (.padding p)
  | compound {i j : Nat} (h : R i j) : Alike R (.compound i) (.compound j)
  | array {a b : FieldType} (h : Alike R a b) (mode : ArrayMode) (size : Nat) :
    Alike R (.array a mode size) (.array b mode size)

/-- The fields have the same name, and types that are alike. -/
structure Field.Alike (R : Nat → Nat → Prop) (a b : Field) : Prop where
  name : b.name = a.name
  type : a.type.Alike R b.type

/-- The sections have the same constants, and fields that are alike. -/
structure Section.Alike (R : Nat → Nat → Prop) (a b : Section) : Prop where
  fields : List.Forall₂ (Field.Alike R) a.fields b.fields
  constants : b.constants = a.constants
  isUnion : b.isUnion = a.isUnion

/-- The definitions have the same name, version and subject id, and sections that are alike. -/
structure Definition.Alike (R : Nat → Nat → Prop) (a b : Definition) : Prop where
  name : b.name = a.name
  version : b.version = a.version
  subjectId : b.subjectId = a.subjectId
  request : a.request.Alike R b.request
  response : Option.Rel (Section.Alike R) a.response b.response

/-! ## Options that are related -/

section Option

variable {α β : Type} {P Q : α → β → Prop}

theorem eq_none_of_rel {b : Option β} (h : Option.Rel P none b) : b = none := by
  cases h
  rfl

theorem exists_of_rel_some {a : α} {b : Option β} (h : Option.Rel P (some a) b) :
    ∃ c, b = some c ∧ P a c := by
  cases h with
  | some h => exact ⟨_, rfl, h⟩

theorem rel_option_imp (himp : ∀ a b, P a b → Q a b) {a : Option α} {b : Option β}
    (h : Option.Rel P a b) : Option.Rel Q a b := by
  cases h with
  | none => exact .none
  | some h => exact .some (himp _ _ h)

end Option

/-! ## Other positions that correspond -/

section Mono

variable {Q : Nat → Nat → Prop} (himp : ∀ i j, R i j → Q i j)

include himp

theorem FieldType.Alike.mono {a b : FieldType} (h : a.Alike R b) : a.Alike Q b := by
  induction h with
  | primitive p => exact .primitive p
  | padding p => exact .padding p
  | compound h => exact .compound (himp _ _ h)
  | array _ mode size ih => exact .array ih mode size

theorem Section.Alike.mono {a b : Section} (h : a.Alike R b) : a.Alike Q b :=
  ⟨h.fields.imp fun _ _ hf => ⟨hf.name, hf.type.mono himp⟩, h.constants, h.isUnion⟩

theorem Definition.Alike.mono {a b : Definition} (h : a.Alike R b) : a.Alike Q b :=
  ⟨h.name, h.version, h.subjectId, h.request.mono himp,
    rel_option_imp (fun _ _ => Section.Alike.mono himp) h.response⟩

end Mono

/-! ## The same definitions in one table -/

theorem FieldType.alike_self {type : FieldType} (h : ∀ id ∈ type.references, R id id) :
    type.Alike R type := by
  induction type with
  | primitive p => exact .primitive p
  | padding p => exact .padding p
  | compound id => exact .compound (h id (List.mem_singleton_self id))
  | array element mode size ih => exact .array (ih h) mode size

theorem Section.alike_self {s : Section} (h : ∀ f ∈ s.fields, ∀ id ∈ f.type.references, R id id) :
    s.Alike R s :=
  ⟨List.forall₂_same.mpr fun f hf => ⟨rfl, FieldType.alike_self (h f hf)⟩, rfl, rfl⟩

/-! ## Lengths -/

namespace FieldType.Alike

variable {a b : FieldType} (h : a.Alike R b)

include h

theorem isCompound_eq : b.isCompound = a.isCompound := by
  cases h <;> rfl

theorem isPadding_eq : b.isPadding = a.isPadding := by
  cases h <;> rfl

variable {spans others : List Span} (hspans : ∀ i j, R i j → spanAt others j = spanAt spans i)

include hspans

theorem greatestWith_eq : b.greatestWith others = a.greatestWith spans := by
  induction h with
  | primitive p => rfl
  | padding p => rfl
  | compound h => rw [greatestWith, greatestWith, hspans _ _ h]
  | array _ mode size ih => rw [greatestWith, greatestWith, ih]

theorem leastWith_eq : b.leastWith others = a.leastWith spans := by
  induction h with
  | primitive p => rfl
  | padding p => rfl
  | compound h => rw [leastWith, leastWith, hspans _ _ h]
  | array _ mode size ih =>
    cases mode with
    | static => rw [leastWith, leastWith, ih]
    | dynamic => rfl

end FieldType.Alike

theorem map_eq_of_forall₂ {α β γ : Type} {P : α → β → Prop} {f : α → γ} {g : β → γ}
    {items : List α} {others : List β} (hall : List.Forall₂ P items others)
    (h : ∀ a b, P a b → g b = f a) : others.map g = items.map f := by
  induction hall with
  | nil => rfl
  | cons hfirst _ ih => rw [List.map_cons, List.map_cons, h _ _ hfirst, ih]

theorem mapM_eq_of_forall₂ {α β γ : Type} {P : α → β → Prop} {f : α → Option γ}
    {g : β → Option γ} {items : List α} {others : List β} (hall : List.Forall₂ P items others)
    (h : ∀ a b, P a b → g b = f a) : others.mapM g = items.mapM f := by
  induction hall with
  | nil => rfl
  | cons hfirst _ ih => rw [List.mapM_cons, List.mapM_cons, h _ _ hfirst, ih]

namespace Section.Alike

variable {a b : Section} (h : a.Alike R b)

include h

theorem length_eq : b.fields.length = a.fields.length := h.fields.length_eq.symm

theorem isEmpty_eq : b.fields.isEmpty = a.fields.isEmpty := by
  rw [Bool.eq_iff_iff, List.isEmpty_iff_length_eq_zero, List.isEmpty_iff_length_eq_zero,
    h.length_eq]

variable {spans others : List Span} (hspans : ∀ i j, R i j → spanAt others j = spanAt spans i)

include hspans

theorem greatestWith_eq : b.greatestWith others = a.greatestWith spans := by
  have hlengths : b.fields.mapM (fun f => f.type.greatestWith others) =
      a.fields.mapM fun f => f.type.greatestWith spans :=
    mapM_eq_of_forall₂ h.fields fun _ _ hf => hf.type.greatestWith_eq hspans
  unfold greatestWith
  rw [h.isEmpty_eq, hlengths, h.isUnion, h.length_eq]

theorem leastWith_eq : b.leastWith others = a.leastWith spans := by
  have hlengths : b.fields.map (fun f => f.type.leastWith others) =
      a.fields.map fun f => f.type.leastWith spans :=
    map_eq_of_forall₂ h.fields fun _ _ hf => hf.type.leastWith_eq hspans
  unfold leastWith
  rw [hlengths, h.isUnion, h.length_eq]

end Section.Alike

/-- Definitions that are alike have the same span. -/
theorem Definition.Alike.measure_eq {a b : Definition} (h : a.Alike R b)
    {spans others : List Span} (hspans : ∀ i j, R i j → spanAt others j = spanAt spans i) :
    Span.measure others b = Span.measure spans a := by
  rw [Span.measure, Span.measure, h.request.leastWith_eq hspans,
    h.request.greatestWith_eq hspans]

/-! ## Channels -/

section Channels

variable {compounds others : List Template}
  (htemplates : ∀ i j, R i j → others[j]? = compounds[i]?)

include htemplates

theorem FieldType.Alike.flattenWith_eq {a b : FieldType} (h : a.Alike R b) (path : String) :
    b.flattenWith others path = a.flattenWith compounds path := by
  cases h with
  | primitive p => rfl
  | padding p => rfl
  | compound h => rw [FieldType.flattenWith, FieldType.flattenWith, htemplates _ _ h]
  | array h mode size =>
    cases h with
    | primitive p => cases mode <;> rfl
    | padding p => rfl
    | compound h => rw [FieldType.flattenWith, FieldType.flattenWith, htemplates _ _ h]
    | array h mode size => rfl

/-- Sections that are alike have the same channels. -/
theorem Section.Alike.flattenFields_eq {a b : Section} (h : a.Alike R b) :
    flattenFields others b.fields = flattenFields compounds a.fields := by
  funext parent
  have hchannels : b.fields.map (fun f => f.type.flattenWith others (joinName parent f.name)) =
      a.fields.map fun f => f.type.flattenWith compounds (joinName parent f.name) := by
    refine map_eq_of_forall₂ h.fields fun f g hf => ?_
    rw [hf.name, hf.type.flattenWith_eq htemplates]
  unfold flattenFields
  rw [List.flatMap_def, hchannels, List.flatMap_def]

end Channels

namespace TypeTable

/-- The span of a definition is measured with the spans of the whole table. -/
theorem spanAt_eq (table : TypeTable) {i : Nat} {d : Definition}
    (hd : table.definitions[i]? = some d) :
    spanAt table.spans i = Span.measure table.spans d := by
  have hrow : table.spans[i]? = some (Span.measure (table.spans.take i) d) := by
    rw [spans_eq_rowsOf]
    exact getElem?_rowsOf hd
  -- A definition is as long among the spans before it as among all of them.
  have hself : d.request.Alike (fun j k => j = k ∧ j < i) d.request :=
    Section.alike_self fun f hf id hid =>
      ⟨rfl, table.backward i d hd id (Definition.mem_references List.mem_cons_self hf hid)⟩
  have hspans : ∀ j k, j = k ∧ j < i → spanAt (table.spans.take i) k = spanAt table.spans j := by
    rintro j _ ⟨rfl, hj⟩
    unfold spanAt
    rw [List.getElem?_take_of_lt hj]
  calc spanAt table.spans i = Span.measure (table.spans.take i) d := by
        rw [spanAt, hrow]
        rfl
    _ = Span.measure table.spans d := by
        rw [Span.measure, Span.measure, hself.leastWith_eq hspans, hself.greatestWith_eq hspans]

end TypeTable

end BusSchema
