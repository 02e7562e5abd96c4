import BusSchema.Proofs.Schema.Session

/-!
# Array sizes in loaded definitions

A bound is written as a 32-bit number, and the greatest length of an array has to be one too.  So
every array that gets into a type table is small enough for its channels to be measured exactly
(`sized_of_ofTree`).
-/

namespace BusSchema

/--
An array has a 32-bit number of elements, and a counted array of primitive values takes a 32-bit
number of bits at most.
-/
def FieldType.Sized : FieldType → Prop
  | .array element mode size =>
    size ≤ max32 ∧ ∀ p, element = .primitive p → mode = .dynamic →
      size * p.width + ceilLog2 size ≤ max32
  | _ => True

/-- All fields of a definition have types with a property. -/
def Definition.AllTypes (good : FieldType → Prop) (d : Definition) : Prop :=
  (∀ f ∈ d.request.fields, good f.type) ∧
    ∀ response ∈ d.response, ∀ f ∈ response.fields, good f.type

/-- All arrays in the definitions of a table are small enough. -/
def TypeTable.Sized (table : TypeTable) : Prop :=
  ∀ d ∈ table.definitions, d.AllTypes FieldType.Sized

namespace FieldType

theorem Valid.sized {table : TypeTable} {type : FieldType} (h : type.Valid table) :
    type.Sized := by
  cases type with
  | primitive p => trivial
  | padding p => trivial
  | compound id => trivial
  | array element mode size =>
    obtain ⟨-, -, -, hsize, hsome⟩ := h
    obtain ⟨length, hlength⟩ := Option.isSome_iff_exists.mp hsome
    obtain ⟨each, heach, hfits, -⟩ := array_greatest?_eq_some hlength
    refine ⟨hsize, ?_⟩
    rintro p rfl rfl
    cases Option.some.inj heach
    exact hfits

end FieldType

theorem Definition.Valid.sized {table : TypeTable} {d : Definition} (h : d.Valid table) :
    d.AllTypes FieldType.Sized := by
  refine ⟨fun f hf => ((h _ List.mem_cons_self).types f hf).sized, ?_⟩
  intro response hresponse f hf
  have hside := h response (List.mem_cons_of_mem _ (Option.mem_toList.mpr hresponse))
  exact (hside.types f hf).sized

namespace TypeTable

theorem Built.sized {table : TypeTable} (h : table.Built) : table.Sized :=
  fun _ hd => (h.valid hd).sized

/-- The arrays in a loaded tree are small enough. -/
theorem sized_of_ofTree {tree : FileTree} {root : Path} {table : TypeTable}
    (h : TypeTable.ofTree tree root = .ok table) : table.Sized :=
  (built_of_ofTree h).sized

end TypeTable

end BusSchema
