import BusSchema.Proofs.Layout.Collisions
import BusSchema.Proofs.Payload.Counts

/-!
# The counts of dynamic arrays

Every dynamic array of a layout has a channel with its count (`TypeTable.CountedBy`), however deep
it is embedded.  The count of an array of scalars never exceeds the declared maximum and is read as
it was given.  The count of an array of compounds is a number like any other: it is not compared
with the maximum, and is read as its rest modulo the patterns of the count
(`Catalogue.sendsCount_of_layoutOf?`).
-/

namespace BusSchema

namespace TypeTable

/--
The channel has the count of a dynamic array of so many elements at most.  The array is one of the
fields, or one inside of a compound field, or inside of an element of an array of compounds.
-/
inductive CountedBy (table : TypeTable) : List Field → String → Channel → Nat → Prop
  | primitives {fields : List Field} {parent : String} {f : Field} {p : Primitive} {size : Nat}
      (hf : f ∈ fields) (htype : f.type = .array (.primitive p) .dynamic size) :
    CountedBy table fields parent
      (.dynamicArray p.kind p.width (joinName parent f.name) size) size
  | compounds {fields : List Field} {parent : String} {f : Field} {id size : Nat}
      (hf : f ∈ fields) (htype : f.type = .array (.compound id) .dynamic size) :
    CountedBy table fields parent
      (.scalar .unsigned (ceilLog2 size) (joinName parent f.name ++ "_count")) size
  | compound {fields : List Field} {parent : String} {f : Field} {id : Nat} {d : Definition}
      {c : Channel} {size : Nat} (hf : f ∈ fields) (htype : f.type = .compound id)
      (hd : table.definitions[id]? = some d)
      (h : CountedBy table d.request.fields (joinName parent f.name) c size) :
    CountedBy table fields parent c size
  | element {fields : List Field} {parent : String} {f : Field} {id count i : Nat}
      {mode : ArrayMode} {d : Definition} {c : Channel} {size : Nat} (hf : f ∈ fields)
      (htype : f.type = .array (.compound id) mode count) (hd : table.definitions[id]? = some d)
      (hi : i < count)
      (h : CountedBy table d.request.fields (indexedName (joinName parent f.name) i) c size) :
    CountedBy table fields parent c size

variable {table : TypeTable} {fields : List Field} {parent : String} {c : Channel} {size : Nat}

theorem mem_flatten {f : Field} (hf : f ∈ fields)
    (hc : c ∈ f.type.flattenWith table.templates (joinName parent f.name)) :
    c ∈ table.flatten fields parent :=
  List.mem_flatMap.mpr ⟨f, hf, hc⟩

/-- A count that takes any bits is among the channels. -/
theorem CountedBy.mem_flatten (h : table.CountedBy fields parent c size) (htable : table.Built)
    (hcarried : ceilLog2 size ≠ 0) : c ∈ table.flatten fields parent := by
  induction h with
  | primitives hf htype =>
    refine TypeTable.mem_flatten hf ?_
    rw [htype]
    exact List.mem_singleton.mpr rfl
  | @compounds _ parent f id size hf htype =>
    refine TypeTable.mem_flatten hf ?_
    have hwidth : countWidth .dynamic size ≠ 0 := hcarried
    rw [htype, FieldType.flattenWith, if_neg hwidth]
    exact List.mem_append_left _ (List.mem_singleton.mpr rfl)
  | compound hf htype hd _ ih =>
    refine TypeTable.mem_flatten hf ?_
    rw [htype, FieldType.flattenWith_compound (table.template hd)]
    exact ih hcarried
  | @element _ parent f id count i mode d c size hf htype hd hi _ ih =>
    have htemplate := table.template hd
    have huniform := htable.isUniform_templates _ (List.mem_of_getElem? htemplate)
    -- The channels of one element are those of the template, moved to the element.
    have hmoved := ih hcarried
    rw [huniform.moves] at hmoved
    refine TypeTable.mem_flatten hf ?_
    rw [htype, FieldType.flattenWith_compounds htemplate]
    apply List.mem_append_right
    unfold elementChannels
    rw [if_neg]
    · exact List.mem_flatMap.mpr ⟨i, List.mem_range.mpr hi, hmoved⟩
    · intro hempty
      rw [List.isEmpty_iff.mp hempty] at hmoved
      cases hmoved

/-- The channel of a count is that of the array itself, or one number for it. -/
theorem CountedBy.shape (h : table.CountedBy fields parent c size) (htable : table.Sized)
    (hfields : ∀ f ∈ fields, f.type.Sized) :
    c.IsCount ∧ (c.isDynamic = true → c.maxCount ≤ size) ∧
      (c.isDynamic = false → c.width = ceilLog2 size) := by
  induction h with
  | primitives hf htype =>
    refine ⟨.array _ _ _, fun _ => Nat.min_le_left _ _, ?_⟩
    intro hdynamic
    cases hdynamic
  | @compounds _ parent f id size hf htype =>
    have hsized : (FieldType.array (.compound id) .dynamic size).Sized := htype ▸ hfields f hf
    refine ⟨.number (Channel.ceilLog2_le hsized.1) _, ?_, fun _ => rfl⟩
    intro hdynamic
    cases hdynamic
  | compound hf htype hd _ ih => exact ih (htable _ (List.mem_of_getElem? hd)).1
  | element hf htype hd hi _ ih => exact ih (htable _ (List.mem_of_getElem? hd)).1

end TypeTable

namespace Frame

variable [HalfConversion]

/--
The frame is parsed, and the count at the place of the channel is the given one.  It is also the
count of the values that are read, if no other channel has a key of this channel.
-/
structure Reports (f : Frame) (before : List Channel) (c : Channel) (after : List Channel)
    (count : Nat) : Prop where
  carried : Payload.countAt? (before ++ c :: after) f.payload before.length = some count
  parsed : ∃ values, f.parse (before ++ c :: after) = .ok values ∧
    ((∀ other ∈ before ++ after, ∀ key, c.HasKey key → ¬other.HasKey key) →
      c.countOf (c.valuesIn values) = count)

/--
What becomes of a count for an array of so many elements at most: that of an array of scalars is
checked, and reported as it is; that of an array of compounds is cut.
-/
def SendsCount (f : Frame) (before : List Channel) (c : Channel) (after : List Channel)
    (size given : Nat) : Prop :=
  if c.isDynamic then given ≤ size ∧ f.Reports before c after given
  else f.Reports before c after (given % 2 ^ ceilLog2 size)

/-- A parsed frame reports the count at the place of the channel. -/
theorem reports_of_parse {f : Frame} {before after : List Channel} {c : Channel} (hc : c.IsCount)
    (hchannels : ∀ d ∈ before ++ c :: after, d.IsCodable) {values : NamedValues}
    (h : f.parse (before ++ c :: after) = .ok values) :
    ∃ count, f.Reports before c after count ∧
      if c.isDynamic then count ≤ c.maxCount else count < 2 ^ c.width := by
  obtain ⟨count, hcarried, hmost, hvalues⟩ := Payload.countAt?_of_read hc hchannels h
  exact ⟨count, ⟨hcarried, values, h, hvalues⟩, hmost⟩

/-- The count that a payload carries is the one that its frame reports. -/
theorem reports_of_carried {f : Frame} {before after : List Channel} {c : Channel}
    (hc : c.IsCount) (hchannels : ∀ d ∈ before ++ c :: after, d.IsCodable) {values : NamedValues}
    (h : f.parse (before ++ c :: after) = .ok values) {count : Nat}
    (hcarried : Payload.countAt? (before ++ c :: after) f.payload before.length = some count) :
    f.Reports before c after count := by
  obtain ⟨other, hreports, -⟩ := reports_of_parse hc hchannels h
  cases hreports.carried.symm.trans hcarried
  exact hreports

theorem sendsCount_of_carried {f : Frame} {before after : List Channel} {c : Channel}
    (hc : c.IsCount) (hchannels : ∀ d ∈ before ++ c :: after, d.IsCodable) {size given : Nat}
    (hsize : c.isDynamic = true → c.maxCount ≤ size)
    (hwidth : c.isDynamic = false → c.width = ceilLog2 size) {values : NamedValues}
    (h : f.parse (before ++ c :: after) = .ok values)
    (hcarried : Payload.countAt? (before ++ c :: after) f.payload before.length =
      some (c.sentCount given))
    (hmost : c.isDynamic = true → given ≤ c.maxCount) :
    f.SendsCount before c after size given := by
  have hreports := reports_of_carried hc hchannels h hcarried
  unfold SendsCount
  unfold Channel.sentCount at hreports
  cases hdynamic : c.isDynamic with
  | true =>
    rw [hdynamic, if_pos rfl] at hreports
    exact ⟨Nat.le_trans (hmost hdynamic) (hsize hdynamic), hreports⟩
  | false =>
    rw [hdynamic, if_neg Bool.false_ne_true] at hreports
    rw [if_neg Bool.false_ne_true, ← hwidth hdynamic, ← hc.lowBits_width hdynamic]
    exact hreports

end Frame

namespace Catalogue

/--
The counts of the dynamic arrays in a layout of a loaded schema.  Each one has a channel.  Whatever
values are written, by name or in channel order, the count of an array of scalars is at most the
declared maximum and is reported as it was given; the count of an array of compounds is accepted
whatever it is, and reported as its rest modulo the patterns of its width, so as it was given
exactly if it is below their number.  A payload that is parsed has no count above the maximum for an
array of scalars, and one that fits into its bits for an array of compounds.
-/
theorem sendsCount_of_layoutOf? [HalfConversion] {tree : FileTree} {root : Path}
    {table : TypeTable} {catalogue : Catalogue} (htable : TypeTable.ofTree tree root = .ok table)
    (hcatalogue : ofTable table = .ok catalogue) {template : Frame} {layout : NamedLayout}
    (hlayout : catalogue.layoutOf? template = some layout) :
    ∃ d ∈ table.definitions, ∃ s ∈ d.sections,
      layout.channels = table.flatten s.fields d.name ∧
      ∀ c size, table.CountedBy s.fields d.name c size → ceilLog2 size ≠ 0 →
        c ∈ layout.channels ∧
        ∀ before after, layout.channels = before ++ c :: after →
          (∀ values f, template.serializeNamed layout.channels values = .ok f →
            f.SendsCount before c after size (c.countOf (c.valuesIn values)) ∧
            (c.isDynamic = false →
              (∀ other ∈ before ++ after, ∀ key, c.HasKey key → ¬other.HasKey key) →
              ∀ value, ∃ f', template.serializeNamed layout.channels
                (values.bind c.name value) = .ok f')) ∧
          (∀ values f, template.serializeOrdered layout.channels values = .ok f →
            ∃ value, (Channel.leftBehind before values).head? = some value ∧
              f.SendsCount before c after size value.toUnsigned64) ∧
          ∀ (f : Frame) values, f.parse layout.channels = .ok values →
            ∃ count, f.Reports before c after count ∧
              if c.isDynamic then count ≤ size else count < 2 ^ ceilLog2 size := by
  have hbuilt := TypeTable.built_of_ofTree htable
  have hfits := fits_of_layoutOf? (fits_of_ofTable hbuilt.sized hcatalogue) hlayout
  obtain ⟨d, hd, s, hs, hchannels⟩ := exists_section_of_layoutOf? hcatalogue hlayout
  refine ⟨d, hd, s, hs, hchannels, ?_⟩
  intro c size hcounted hcarried
  have hsized : ∀ f ∈ s.fields, f.type.Sized := fun f hf =>
    ((hbuilt.valid hd s hs).types f hf).sized
  obtain ⟨hc, hsize, hwidth⟩ := hcounted.shape hbuilt.sized hsized
  refine ⟨?_, ?_⟩
  · rw [hchannels]
    exact hcounted.mem_flatten hbuilt hcarried
  intro before after hsplit
  have hcodable : ∀ other ∈ before ++ c :: after, other.IsCodable := by
    intro other hother
    rw [← hsplit] at hother
    exact (hfits other hother).isCodable
  rw [hsplit]
  refine ⟨?_, ?_, ?_⟩
  · intro values f hserialize
    obtain ⟨payload, hwrite, rfl⟩ := map_eq_ok_iff.mp hserialize
    obtain ⟨hsent, hmost⟩ := Payload.countAt?_of_writeNamed hc hcodable hwrite
    have hread := Payload.read_of_writeNamed hcodable hwrite #[]
    rw [Array.append_empty] at hread
    refine ⟨Frame.sendsCount_of_carried hc hcodable hsize hwidth hread hsent hmost, ?_⟩
    intro hdynamic hown value
    obtain ⟨other, hother⟩ := Payload.exists_writeNamed_bind hc hdynamic hown hwrite value
    exact ⟨_, map_eq_ok_iff.mpr ⟨other, hother, rfl⟩⟩
  · intro values f hserialize
    obtain ⟨payload, hwrite, rfl⟩ := map_eq_ok_iff.mp hserialize
    obtain ⟨value, hvalue, hsent, hmost⟩ := Payload.countAt?_of_writeOrdered hc hcodable hwrite
    have hread := Payload.read_of_writeOrdered hcodable hwrite #[]
    rw [Array.append_empty] at hread
    exact ⟨value, hvalue, Frame.sendsCount_of_carried hc hcodable hsize hwidth hread hsent hmost⟩
  · intro f values hparse
    obtain ⟨count, hreports, hmost⟩ := Frame.reports_of_parse hc hcodable hparse
    refine ⟨count, hreports, ?_⟩
    split
    · next hdynamic =>
      rw [if_pos hdynamic] at hmost
      exact Nat.le_trans hmost (hsize hdynamic)
    · next hdynamic =>
      rw [if_neg hdynamic, hwidth (Bool.eq_false_of_not_eq_true hdynamic)] at hmost
      exact hmost

open scoped HalfConversion in
/-- No more elements than an array of scalars holds are sent, and all that are sent are reported. -/
theorem sendsCount_of_layoutOf?_scalars :
    let tree := FileTree.ofTexts [("r/100.A.1.0.uavcan", "uint8[<=3] a\n")]
    let template := Frame.message 100 5 2
    let c := Channel.dynamicArray .unsigned 8 "A.a" 3
    ∃ table catalogue layout,
      TypeTable.ofTree tree (Path.ofText "r") = .ok table ∧ ofTable table = .ok catalogue ∧
      catalogue.layoutOf? template = some layout ∧ ceilLog2 3 ≠ 0 ∧
      ∀ values f, template.serializeNamed layout.channels values = .ok f →
        c.countOf (c.valuesIn values) ≤ 3 ∧ f.Reports [] c [] (c.countOf (c.valuesIn values)) := by
  intro tree template c
  let catalogue : Catalogue := { messages := [⟨100, "A", [c]⟩] }
  let p : Primitive := ⟨.unsigned, 8, .saturated, by decide⟩
  let field : Field := ⟨"a", .array (.primitive p) .dynamic 3⟩
  let definition : Definition :=
    { name := "A", version := ⟨1, 0⟩, subjectId := 100, request := { fields := [field] } }
  have hschema : (TypeTable.ofTree tree (Path.ofText "r") >>= ofTable) = .ok catalogue := by
    decide +kernel
  have hdefinitions : (TypeTable.ofTree tree (Path.ofText "r")).map TypeTable.definitions =
      .ok [definition] := by decide +kernel
  obtain ⟨table, htable, hcatalogue⟩ := bind_eq_ok_iff.mp hschema
  have hlayout : catalogue.layoutOf? template = some ⟨"A", [c]⟩ := rfl
  have hcarried : ceilLog2 3 ≠ 0 := by decide
  obtain ⟨d, hd, s, hs, -, hcounts⟩ := sendsCount_of_layoutOf? htable hcatalogue hlayout
  rw [htable] at hdefinitions
  rw [Except.ok.inj hdefinitions, List.mem_singleton] at hd
  subst hd
  have hsection : s = definition.request := List.mem_singleton.mp hs
  have hcounted : table.CountedBy s.fields definition.name c 3 := by
    rw [hsection]
    exact .primitives (f := field) (List.mem_singleton.mpr rfl) rfl
  obtain ⟨hnamed, -, -⟩ := (hcounts c 3 hcounted hcarried).2 [] [] rfl
  refine ⟨table, catalogue, _, htable, hcatalogue, hlayout, hcarried, ?_⟩
  intro values f hserialize
  exact (hnamed values f hserialize).1

open scoped HalfConversion in
/-- Seven elements of five are accepted and read, and eight of them are read as none. -/
theorem compounds_beyond_capacity :
    let tree := FileTree.ofTexts [("r/B.uavcan", "uint8 x\n"), ("r/100.A.1.0.uavcan", "B[<=5] a\n")]
    let template := Frame.message 100 5 2
    let c := Channel.scalar .unsigned 3 "A.a_count"
    let values (count : Nat) : NamedValues := Bindings.ofList
      (("A.a_count", Double.ofNat count) :: (List.range 5).map fun i =>
        (indexedName "A.a" i ++ ".x", Double.ofNat 1))
    ∃ table catalogue layout f g,
      TypeTable.ofTree tree (Path.ofText "r") = .ok table ∧ ofTable table = .ok catalogue ∧
      catalogue.layoutOf? template = some layout ∧ layout.channels.head? = some c ∧
      (∃ d ∈ table.definitions, table.CountedBy d.request.fields d.name c 5) ∧
      template.serializeNamed layout.channels (values 7) = .ok f ∧
      (f.parse layout.channels).map (·.get? "A.a_count") = .ok (some (Double.ofNat 7)) ∧
      template.serializeNamed layout.channels (values 8) = .ok g ∧
      (g.parse layout.channels).map (·.get? "A.a_count") = .ok (some (Double.ofNat 0)) := by
  intro tree template c values
  let element (i : Nat) : Channel := Channel.scalar .unsigned 8 (indexedName "A.a" i ++ ".x")
  let layout : NamedLayout := ⟨"A", c :: (List.range 5).map element⟩
  let catalogue : Catalogue := { messages := [⟨100, "A", layout.channels⟩] }
  let p : Primitive := ⟨.unsigned, 8, .saturated, by decide⟩
  let field : Field := ⟨"a", .array (.compound 0) .dynamic 5⟩
  let inner : Definition := { name := "B", request := { fields := [⟨"x", .primitive p⟩] } }
  let outer : Definition :=
    { name := "A", version := ⟨1, 0⟩, subjectId := 100, request := { fields := [field] } }
  have hschema : (TypeTable.ofTree tree (Path.ofText "r") >>= ofTable) = .ok catalogue := by
    decide +kernel
  have hdefinitions : (TypeTable.ofTree tree (Path.ofText "r")).map TypeTable.definitions =
      .ok [inner, outer] := by decide +kernel
  obtain ⟨table, htable, hcatalogue⟩ := bind_eq_ok_iff.mp hschema
  have hlayout : catalogue.layoutOf? template = some layout := rfl
  have houter : outer ∈ table.definitions := by
    rw [htable] at hdefinitions
    rw [Except.ok.inj hdefinitions]
    exact List.mem_cons_of_mem _ (List.mem_singleton.mpr rfl)
  have hcounted : table.CountedBy outer.request.fields outer.name c 5 :=
    .compounds (f := field) (List.mem_singleton.mpr rfl) rfl
  have hseven : template.serializeNamed layout.channels (values 7) =
      .ok { template with payload := #[15, 8, 8, 8, 8, 0] } := by decide +kernel
  have height : template.serializeNamed layout.channels (values 8) =
      .ok { template with payload := #[8, 8, 8, 8, 8, 0] } := by decide +kernel
  exact ⟨table, catalogue, layout, _, _, htable, hcatalogue, hlayout, rfl,
    ⟨outer, houter, hcounted⟩, hseven, by decide +kernel, height, by decide +kernel⟩

end Catalogue

end BusSchema
