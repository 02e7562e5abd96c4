import BusSchema.Proofs.Layout.Paths
import Mathlib.Logic.Relation

/-!
# Flattening keeps the greatest length

Without unions, the channels of a section together take as many bits at most as the section
(`TypeTable.total_greatest_flatten`).  The two lengths are computed in different ways: that of a
section once for each definition and with an error above 32 bits, that of channels for each channel
and saturating.  Neither the error nor a saturation occurs.
-/

namespace BusSchema

/-! ## Totals -/

theorem total_flatMap {α : Type} (items : List α) (f : α → List Nat) :
    total (items.flatMap f) = total (items.map fun a => total (f a)) := by
  induction items with
  | nil => rfl
  | cons a rest ih =>
    rw [List.flatMap_cons, total_append, ih]
    rfl

/-- Items that are all of one length take that length once for each item. -/
theorem total_map_range {count n : Nat} {f : Nat → Nat} (h : ∀ i, f i = n) :
    total ((List.range count).map f) = count * n := by
  induction count with
  | zero => exact (Nat.zero_mul n).symm
  | succ count ih =>
    have hlast : total [f count] = n := h count
    rw [List.range_succ, List.map_append, total_append, ih, List.map_singleton, hlast,
      Nat.succ_mul]

theorem mapM_eq_some_of_isSome {α : Type} {f : α → Option Nat} {default : Nat} {items : List α}
    (h : ∀ a ∈ items, (f a).isSome) :
    items.mapM f = some (items.map fun a => (f a).getD default) := by
  induction items with
  | nil => rfl
  | cons a rest ih =>
    obtain ⟨hfirst, hrest⟩ := List.forall_mem_cons.mp h
    obtain ⟨n, hn⟩ := Option.isSome_iff_exists.mp hfirst
    rw [List.mapM_cons, ih hrest, List.map_cons, hn]
    rfl

/-! ## Channels -/

namespace Channel

section TotalOf

variable {measure : Channel → Nat}

/-- What channels measure together. -/
def totalOf (measure : Channel → Nat) (channels : List Channel) : Nat :=
  total (channels.map measure)

theorem totalOf_append (a b : List Channel) :
    totalOf measure (a ++ b) = totalOf measure a + totalOf measure b := by
  rw [totalOf, List.map_append, total_append]
  rfl

theorem totalOf_flatMap {α : Type} (items : List α) (f : α → List Channel) :
    totalOf measure (items.flatMap f) = total (items.map fun a => totalOf measure (f a)) := by
  rw [totalOf, List.map_flatMap, total_flatMap]
  rfl

theorem totalOf_elementChannels (hbelow : ∀ c path, measure (Channel.below c path) = measure c)
    (channels : List Channel) (path : String) (count : Nat) :
    totalOf measure (elementChannels channels path count) = count * totalOf measure channels := by
  unfold elementChannels
  split
  · next hempty =>
    rw [List.isEmpty_iff.mp hempty]
    rfl
  · rw [totalOf_flatMap]
    refine total_map_range fun i => ?_
    rw [totalOf, List.map_map]
    exact congrArg total (List.map_congr_left fun c _ => hbelow c _)

end TotalOf

/-- The greatest number of bits that all channels take together. -/
def greatestTotal (channels : List Channel) : Nat := total (channels.map greatest)

theorem greatestTotal_append (a b : List Channel) :
    greatestTotal (a ++ b) = greatestTotal a + greatestTotal b :=
  totalOf_append a b

theorem greatestTotal_flatMap {α : Type} (items : List α) (f : α → List Channel) :
    greatestTotal (items.flatMap f) = total (items.map fun a => greatestTotal (f a)) :=
  totalOf_flatMap items f

theorem greatestTotal_countChannels (width : Nat) (path : String) :
    greatestTotal (countChannels width path) = width := by
  unfold countChannels
  split
  · next hzero =>
    rw [hzero]
    rfl
  · rfl

theorem greatestTotal_elementChannels (channels : List Channel) (path : String) (count : Nat) :
    greatestTotal (elementChannels channels path count) = count * greatestTotal channels :=
  totalOf_elementChannels (fun _ _ => rfl) channels path count

/-- A dynamic array whose bits have a 32-bit number is measured without saturation. -/
theorem greatest_dynamicArray {kind : ScalarKind} {width capacity : Nat} (name : String)
    (h : capacity * width + ceilLog2 capacity ≤ max32) :
    (dynamicArray kind width name capacity).greatest = capacity * width + ceilLog2 capacity := by
  have hwidth : (dynamicArray kind width name capacity).greatest =
      saturate32 (saturate32 (width * capacity) + ceilLog2 capacity) := rfl
  rw [hwidth, Nat.mul_comm width capacity]
  unfold saturate32
  omega

end Channel

/-! ## Types and sections -/

namespace TypeTable

/-- The channels of a definition as a compound type are as long as its span says. -/
def MeasuresAt (table : TypeTable) (id : Nat) : Prop :=
  ∃ template, table.templates[id]? = some template ∧
    ∀ path, (spanAt table.spans id).greatest = some (Channel.greatestTotal (template path))

theorem Grows.measuresAt {a b : TypeTable} (hab : a.Grows b) {id : Nat} (h : a.MeasuresAt id) :
    b.MeasuresAt id := by
  obtain ⟨template, htemplate, hlength⟩ := h
  have hid : id < a.size := by
    rw [← length_templates]
    exact (List.getElem?_eq_some_iff.mp htemplate).1
  refine ⟨template, ?_, ?_⟩
  · rw [hab.template hid, htemplate]
  · rw [hab.spanAt hid]
    exact hlength

end TypeTable

namespace FieldType

variable {table : TypeTable}

/-- The channels of a type are as long as the type, if this is so for its compound types. -/
theorem greatestTotal_flattenWith {type : FieldType} (htype : type.Valid table)
    (hcompound : ∀ id ∈ type.references, table.MeasuresAt id) {length : Nat}
    (hlength : type.greatest? table = some length) (path : String) :
    Channel.greatestTotal (type.flattenWith table.templates path) = length := by
  cases type, htype using Valid.elim with
  | padding p => exact Option.some.inj hlength
  | primitive p => exact Option.some.inj hlength
  | compound id =>
    obtain ⟨template, htemplate, hspan⟩ := hcompound id (List.mem_singleton.mpr rfl)
    rw [flattenWith_compound htemplate]
    exact Option.some.inj ((hspan path).symm.trans hlength)
  | primitives p mode size =>
    obtain ⟨each, heach, hfits, rfl⟩ := array_greatest?_eq_some hlength
    cases Option.some.inj heach
    cases mode with
    | dynamic =>
      have hone : Channel.greatestTotal
          ((array (primitive p) .dynamic size).flattenWith table.templates path) =
            (Channel.dynamicArray p.kind p.width path size).greatest := rfl
      rw [hone, Channel.greatest_dynamicArray path hfits]
      rfl
    | static =>
      rw [flattenWith, Channel.greatestTotal, List.map_map]
      exact total_map_range fun i => rfl
  | compounds id mode size =>
    obtain ⟨each, heach, -, rfl⟩ := array_greatest?_eq_some hlength
    obtain ⟨template, htemplate, hspan⟩ := hcompound id (List.mem_singleton.mpr rfl)
    have helement : each = Channel.greatestTotal (template "") :=
      Option.some.inj (heach.symm.trans (hspan ""))
    rw [flattenWith_compounds htemplate, Channel.greatestTotal_append,
      Channel.greatestTotal_countChannels, Channel.greatestTotal_elementChannels, helement,
      Nat.add_comm]

end FieldType

namespace Section

variable {table : TypeTable} {s : Section}

/-- The greatest length of a valid section without a union is the sum of those of its fields. -/
theorem Valid.greatest?_eq (hs : s.Valid table) (hunion : s.isUnion = false) :
    s.greatest? table = some (total (s.fields.map fun f => f.type.greatest table)) := by
  have hlengths : s.fields.mapM (fun f => f.type.greatestWith table.spans) =
      some (s.fields.map fun f => f.type.greatest table) :=
    mapM_eq_some_of_isSome hs.measured
  unfold greatest? greatestWith
  split
  · next hempty =>
    rw [List.isEmpty_iff.mp hempty]
    rfl
  · rw [hlengths, hunion]
    exact fit32?_eq_some_iff.mpr ⟨rfl, hs.bounded⟩

/-- The channels of a section are as long as the section. -/
theorem Valid.greatest?_eq_greatestTotal (hs : s.Valid table) (hunion : s.isUnion = false)
    (hcompound : ∀ f ∈ s.fields, ∀ id ∈ f.type.references, table.MeasuresAt id)
    (parent : String) :
    s.greatest? table = some (Channel.greatestTotal (table.flatten s.fields parent)) := by
  have hfields : ∀ f ∈ s.fields,
      Channel.greatestTotal (f.type.flattenWith table.templates (joinName parent f.name)) =
        f.type.greatest table := by
    intro f hf
    obtain ⟨length, hlength⟩ := Option.isSome_iff_exists.mp (hs.measured f hf)
    rw [FieldType.greatest, hlength]
    exact FieldType.greatestTotal_flattenWith (hs.types f hf) (hcompound f hf) hlength _
  rw [hs.greatest?_eq hunion, TypeTable.flatten, flattenFields, Channel.greatestTotal_flatMap,
    List.map_congr_left hfields]

end Section

/-! ## Tables -/

namespace TypeTable

/-- One of the sections of a definition refers to another definition. -/
def RefersTo (table : TypeTable) (i j : Nat) : Prop :=
  ∃ d, table.definitions[i]? = some d ∧ ∃ s ∈ d.sections, ∃ f ∈ s.fields, j ∈ f.type.references

/-- A definition refers to definitions before it. -/
theorem lt_of_refersTo {table : TypeTable} {i j : Nat} (h : table.RefersTo i j) : j < i := by
  obtain ⟨d, hd, s, hs, f, hf, hj⟩ := h
  exact table.backward i d hd j (Definition.mem_references hs hf hj)

/-- Neither a definition nor any that is reached from its fields has a union. -/
def UnionFree (table : TypeTable) (i : Nat) : Prop :=
  ∀ j, Relation.ReflTransGen table.RefersTo i j → ∀ d, table.definitions[j]? = some d →
    ∀ s ∈ d.sections, s.isUnion = false

theorem UnionFree.of_grows {a b : TypeTable} (hab : a.Grows b) {i : Nat} (h : b.UnionFree i) :
    a.UnionFree i := by
  intro j hreach d hd
  have hstep : ∀ i j, a.RefersTo i j → b.RefersTo i j := by
    rintro i j ⟨d, hd, hrefers⟩
    exact ⟨d, hab.getElem? hd, hrefers⟩
  exact h j (Relation.ReflTransGen.mono hstep _ _ hreach) d (hab.getElem? hd)

theorem UnionFree.of_refersTo {table : TypeTable} {i j : Nat} (h : table.UnionFree i)
    (hrefers : table.RefersTo i j) : table.UnionFree j :=
  fun k hreach => h k (hreach.head hrefers)

theorem spanAt_push {table : TypeTable} {d : Definition} (h : table.Accepts d) :
    spanAt (table.push d h).2.spans table.size = Span.measure table.spans d := by
  have hspans : (table.push d h).2.spans = table.spans ++ [Span.measure table.spans d] := rfl
  rw [spanAt, hspans, ← length_spans, List.getElem?_concat_length]
  rfl

/--
What holds of a definition without a union as soon as it holds of those that it embeds, and goes on
to hold while the table grows, holds of all definitions from which no union is reached.
-/
theorem Built.induction_of_unionFree {P : TypeTable → Nat → Prop}
    (hgrows : ∀ {a b : TypeTable} {id : Nat}, a.Grows b → P a id → P b id)
    (hpush : ∀ (table : TypeTable) (d : Definition), d.request.Valid table →
      d.request.isUnion = false →
      (∀ f ∈ d.request.fields, ∀ id ∈ f.type.references, P table id) →
      ∀ haccepts : table.Accepts d, P (table.push d haccepts).2 table.size)
    {table : TypeTable} (htable : table.Built) {i : Nat} (hi : i < table.size)
    (hfree : table.UnionFree i) : P table i := by
  induction htable generalizing i with
  | empty => cases hi
  | @push table d htable hd haccepts ih =>
    have hgrowth := grows_push haccepts
    have hearlier : ∀ id < table.size, (table.push d haccepts).2.UnionFree id → P table id :=
      fun id hid hidFree => ih hid (hidFree.of_grows hgrowth)
    rcases Nat.lt_or_ge i table.size with hbefore | hlast
    · exact hgrows hgrowth (hearlier i hbefore hfree)
    -- The definition that is pushed last embeds only messages before it.
    have hsize : (table.push d haccepts).2.size = table.size + 1 := List.length_append
    obtain rfl : i = table.size := by omega
    have hlookup : (table.push d haccepts).2.definitions[table.size]? = some d :=
      List.getElem?_concat_length
    have hrequest : d.request ∈ d.sections := List.mem_cons_self
    refine hpush table d (hd d.request hrequest) (hfree table.size .refl d hlookup _ hrequest)
      (fun f hf id hid => ?_) haccepts
    have hid' := haccepts.resolved id (Definition.mem_references hrequest hf hid)
    exact hearlier id hid' (hfree.of_refersTo ⟨d, hlookup, d.request, hrequest, f, hf, hid⟩)

theorem template_push {table : TypeTable} {d : Definition} (h : table.Accepts d) :
    (table.push d h).2.templates[table.size]? = some (table.flatten d.request.fields) := by
  rw [templates_push, ← length_templates, List.getElem?_concat_length]

/-- All definitions without unions measure as compound types what their channels do. -/
theorem Built.measuresAt {table : TypeTable} (htable : table.Built) {i : Nat}
    (hi : i < table.size) (hfree : table.UnionFree i) : table.MeasuresAt i := by
  refine htable.induction_of_unionFree (P := MeasuresAt) (fun hab h => hab.measuresAt h) ?_ hi hfree
  intro table d hrequest hunion hcompound haccepts
  refine ⟨table.flatten d.request.fields, template_push haccepts, fun path => ?_⟩
  rw [spanAt_push]
  exact hrequest.greatest?_eq_greatestTotal hunion hcompound path

/--
If no union is reached from a definition that a session has loaded, then the greatest lengths of the
channels of either side add up to that of the side, whatever path the channels are below.  The side
has a greatest length, and no channel is cut off at the largest 32-bit number.
-/
theorem total_greatest_flatten (root : Path) (calls : List Load.Call) {i : Nat} {d : Definition}
    (hd : (Load.tableAfter root calls).definitions[i]? = some d)
    (hfree : (Load.tableAfter root calls).UnionFree i) (parent : String) :
    let table := Load.tableAfter root calls
    ∀ s ∈ [d.request, d.response.getD {}],
      let channels := table.flatten s.fields parent
      total (channels.map Channel.greatest) = s.greatest table ∧ (s.greatest? table).isSome ∧
        ∀ c ∈ channels, ∀ capacity ∈ c.capacity, c.width * capacity + c.countWidth ≤ max32 := by
  intro table s hs channels
  have hbuilt : table.Built := Load.built_tableAfter root calls
  have hvalid : d.Valid table := hbuilt.valid (List.mem_of_getElem? hd)
  -- The response of a message is no section of it, but an empty one.
  have hside : s ∈ d.sections ∨ s = {} := by
    cases hresponse : d.response <;> simp_all [Definition.sections]
  have hsection : s.Valid table := by
    rcases hside with hside | rfl
    · exact hvalid s hside
    · exact (SectionDraft.valid_empty table).toSection
  have hunion : s.isUnion = false := by
    rcases hside with hside | rfl
    · exact hfree i .refl d hd s hside
    · rfl
  have hcompound : ∀ f ∈ s.fields, ∀ id ∈ f.type.references, table.MeasuresAt id := by
    intro f hf id hid
    rcases hside with hside | rfl
    · obtain ⟨target, htarget, -⟩ := (hsection.types f hf).references id hid
      refine hbuilt.measuresAt (List.getElem?_eq_some_iff.mp htarget).1 (hfree.of_refersTo ?_)
      exact ⟨d, hd, s, hside, f, hf, hid⟩
    · cases hf
  have hlength := hsection.greatest?_eq_greatestTotal hunion hcompound parent
  have hfits : ∀ c ∈ channels, c.Fits :=
    fits_flattenFields (fits_templates hbuilt.sized) (fun f hf => (hsection.types f hf).sized) parent
  refine ⟨?_, ?_, ?_⟩
  · rw [Section.greatest, hlength]
    rfl
  · rw [hlength]
    rfl
  · intro c hc capacity hcapacity
    exact ((hfits c hc).array capacity hcapacity).2

/-- Counted arrays of a compound type, one of them without a count, and padding around them. -/
theorem total_greatest_flatten_nested :
    let root := Path.ofText "r"
    let tree := FileTree.ofTexts [("r/A.uavcan", "uint8[<=3] a\nvoid3\n"),
      ("r/B.uavcan", "bool b\nA c\nA[<=1] d\nA[<=3] e\nfloat16[2] f\n")]
    let table := Load.tableAfter root [.whole tree]
    ∃ d, table.definitions[1]? = some d ∧ table.UnionFree 1 ∧
      total ((table.flatten d.request.fields "B").map Channel.greatest) = 190 := by
  intro root tree table
  have hlength : (table.definitions[1]?).map (fun d => d.request.greatest table) = some 190 := by
    decide +kernel
  have hunion : ∀ d ∈ table.definitions, ∀ s ∈ d.sections, s.isUnion = false := by
    decide +kernel
  have hfree : table.UnionFree 1 := fun j _ d hd => hunion d (List.mem_of_getElem? hd)
  obtain ⟨d, hd, hgreatest⟩ := Option.map_eq_some_iff.mp hlength
  have htotal := total_greatest_flatten root [.whole tree] hd hfree "B"
  exact ⟨d, hd, hfree, (htotal d.request List.mem_cons_self).1.trans hgreatest⟩

end TypeTable

end BusSchema
