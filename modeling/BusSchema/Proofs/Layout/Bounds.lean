import BusSchema.Proofs.Layout.Lengths

/-!
# How long a payload is

A payload takes no fewer bits than the least ones of its channels and no more than the greatest ones
(`Channel.size_of_serializesTo`).  The least length of a section adds up to no more than the former,
as long as no union puts a tag in front of it (`Section.Valid.least_le_leastTotal`), and the greatest
one to the latter.  So the declared lengths of a section bound its payloads, and the longest payload
of a catalogue bounds those of all its layouts (`TypeTable.size_of_serialize`).
-/

namespace BusSchema

open Bits

section SerializesTo

variable [HalfConversion]

/-- A frame is what values come to in a template, taken by name or in channel order. -/
def Frame.SerializesTo (template : Frame) (channels : List Channel) (f : Frame) : Prop :=
  (∃ values, template.serializeNamed channels values = .ok f) ∨
    ∃ values, template.serializeOrdered channels values = .ok f

/-- Either way of taking values writes an allotment of the channels. -/
theorem Frame.SerializesTo.exists_allotment {template f : Frame} {channels : List Channel}
    (h : template.SerializesTo channels f) :
    ∃ allotment : Allotment, allotment.map Prod.fst = channels ∧ allotment.Admitted ∧
      f.payload = (allotment.foldl Payload.put {}).bytes := by
  rcases h with ⟨values, h⟩ | ⟨values, h⟩
  · obtain ⟨payload, hwrite, rfl⟩ := map_eq_ok_iff.mp h
    obtain ⟨hadmitted, rfl⟩ := Payload.writeNamed_eq_ok_iff.mp hwrite
    exact ⟨_, Payload.channels_ofNamed channels values, hadmitted, rfl⟩
  · obtain ⟨payload, hwrite, rfl⟩ := map_eq_ok_iff.mp h
    obtain ⟨hadmitted, rfl⟩ := Payload.put_of_writeOrdered hwrite
    exact ⟨_, Payload.channels_ofOrdered channels values, hadmitted, rfl⟩

end SerializesTo

/-! ## Channels -/

namespace Channel

/-- The least number of bits that the channel takes: those of one value or of an empty array. -/
def least (c : Channel) : Nat := if c.isDynamic then c.countWidth else c.width

/-- The least number of bits that all channels take together. -/
def leastTotal (channels : List Channel) : Nat := totalOf least channels

theorem Fits.least_le_bitsOf {c : Channel} (hc : c.Fits) {count : Nat}
    (hadmits : c.Admits count) : c.least ≤ c.bitsOf count := by
  unfold least bitsOf
  unfold Admits at hadmits
  cases hdynamic : c.isDynamic with
  | true =>
    obtain ⟨capacity, hcapacity⟩ := Option.isSome_iff_exists.mp (c.isDynamic_eq ▸ hdynamic)
    have hvoid := (hc.array capacity hcapacity).1
    simp [hvoid]
  | false =>
    cases hvoid : c.isVoid with
    | true => simp
    | false =>
      have hone : count = 1 := by simpa [hvoid, hdynamic] using hadmits
      simp [hone]

end Channel

theorem Allotment.leastTotal_le_bits {allotment : Allotment}
    (hfits : ∀ entry ∈ allotment, entry.1.Fits) (hadmitted : allotment.Admitted) :
    Channel.leastTotal (allotment.map Prod.fst) ≤ allotment.bits := by
  induction allotment with
  | nil => exact Nat.le_refl 0
  | cons entry rest ih =>
    obtain ⟨hfirst, hrest⟩ := List.forall_mem_cons.mp hfits
    obtain ⟨hadmits, hrestAdmitted⟩ := admitted_cons_iff.mp hadmitted
    rw [bits_cons]
    exact Nat.add_le_add (hfirst.least_le_bitsOf hadmits) (ih hrest hrestAdmitted)

/-- A payload is as long as its channels allow. -/
theorem Channel.size_of_serializesTo [HalfConversion] {template f : Frame}
    {channels : List Channel} (hfits : ∀ c ∈ channels, c.Fits)
    (h : template.SerializesTo channels f) :
    bytesFor (leastTotal channels) ≤ f.payload.size ∧
      f.payload.size ≤ bytesFor (greatestTotal channels) := by
  obtain ⟨allotment, rfl, hadmitted, hpayload⟩ := h.exists_allotment
  have hentries : ∀ entry ∈ allotment, entry.1.Fits :=
    fun entry hentry => hfits entry.1 (List.mem_map_of_mem hentry)
  have htight := Payload.tight_puts BitWriter.tight_empty fun entry hentry =>
    (hentries entry hentry).isCodable
  have hsize : f.payload.size = bytesFor allotment.bits := by
    rw [hpayload, htight.size, Payload.offset_puts]
    exact congrArg bytesFor (Nat.zero_add _)
  rw [hsize]
  exact ⟨bytesFor_mono (Allotment.leastTotal_le_bits hentries hadmitted),
    bytesFor_mono (Allotment.bits_le hentries hadmitted)⟩

/-! ## Types and sections -/

namespace TypeTable

/-- The channels of a definition as a compound type take no fewer bits than its span says. -/
def BoundsAt (table : TypeTable) (id : Nat) : Prop :=
  ∃ template, table.templates[id]? = some template ∧
    ∀ path, (spanAt table.spans id).least ≤ Channel.leastTotal (template path)

end TypeTable

theorem saturate32_le (n : Nat) : saturate32 n ≤ n := Nat.min_le_left n max32

namespace FieldType

variable {table : TypeTable}

/-- The channels of a type take no fewer bits than the type, if so do those of its compounds. -/
theorem least_le_leastTotal {type : FieldType} (htype : type.Valid table)
    (hcompound : ∀ id ∈ type.references, table.BoundsAt id) (path : String) :
    type.least table ≤ Channel.leastTotal (type.flattenWith table.templates path) := by
  cases type, htype using Valid.elim with
  | padding p => exact Nat.le_refl p.width
  | primitive p => exact Nat.le_refl p.width
  | compound id =>
    obtain ⟨template, htemplate, hspan⟩ := hcompound id (List.mem_singleton.mpr rfl)
    rw [flattenWith_compound htemplate]
    exact hspan path
  | primitives p mode size =>
    cases mode with
    | dynamic => exact Nat.zero_le _
    | static =>
      have htotal : Channel.leastTotal
          ((array (primitive p) .static size).flattenWith table.templates path) =
            size * p.width := by
        rw [flattenWith, Channel.leastTotal, Channel.totalOf, List.map_map]
        exact total_map_range fun i => rfl
      rw [htotal]
      exact saturate32_le _
  | compounds id mode size =>
    cases mode with
    | dynamic => exact Nat.zero_le _
    | static =>
      obtain ⟨template, htemplate, hspan⟩ := hcompound id (List.mem_singleton.mpr rfl)
      have htotal : Channel.leastTotal
          ((array (compound id) .static size).flattenWith table.templates path) =
            size * Channel.leastTotal (template "") := by
        rw [flattenWith_compounds htemplate]
        exact Channel.totalOf_elementChannels (fun _ _ => rfl) _ _ _
      rw [htotal]
      exact (saturate32_le _).trans (Nat.mul_le_mul_left size (hspan ""))

end FieldType

theorem total_le_total {α : Type} {items : List α} {f g : α → Nat} (h : ∀ a ∈ items, f a ≤ g a) :
    total (items.map f) ≤ total (items.map g) := by
  induction items with
  | nil => exact Nat.le_refl 0
  | cons a rest ih =>
    obtain ⟨hfirst, hrest⟩ := List.forall_mem_cons.mp h
    exact Nat.add_le_add hfirst (ih hrest)

/-- The channels of a section without a union take no fewer bits than the section. -/
theorem Section.Valid.least_le_leastTotal {table : TypeTable} {s : Section} (hs : s.Valid table)
    (hunion : s.isUnion = false)
    (hcompound : ∀ f ∈ s.fields, ∀ id ∈ f.type.references, table.BoundsAt id) (parent : String) :
    s.least table ≤ Channel.leastTotal (table.flatten s.fields parent) := by
  have hleast : s.least table = saturate32 (total (s.fields.map fun f => f.type.least table)) := by
    rw [least, leastWith, hunion]
    rfl
  rw [hleast, TypeTable.flatten, flattenFields, Channel.leastTotal, Channel.totalOf_flatMap]
  refine (saturate32_le _).trans (total_le_total fun f hf => ?_)
  exact FieldType.least_le_leastTotal (hs.types f hf) (hcompound f hf) _

/-! ## Tables -/

namespace TypeTable

theorem Grows.boundsAt {a b : TypeTable} (hab : a.Grows b) {id : Nat} (h : a.BoundsAt id) :
    b.BoundsAt id := by
  obtain ⟨template, htemplate, hlength⟩ := h
  have hid : id < a.size := by
    rw [← length_templates]
    exact (List.getElem?_eq_some_iff.mp htemplate).1
  refine ⟨template, ?_, ?_⟩
  · rw [hab.template hid, htemplate]
  · rw [hab.spanAt hid]
    exact hlength

/-- No definition without unions is shorter as a compound type than its span says. -/
theorem Built.boundsAt {table : TypeTable} (htable : table.Built) {i : Nat} (hi : i < table.size)
    (hfree : table.UnionFree i) : table.BoundsAt i := by
  refine htable.induction_of_unionFree (P := BoundsAt) (fun hab h => hab.boundsAt h) ?_ hi hfree
  intro table d hrequest hunion hcompound haccepts
  refine ⟨table.flatten d.request.fields, template_push haccepts, fun path => ?_⟩
  rw [spanAt_push]
  exact hrequest.least_le_leastTotal hunion hcompound path

/-- What is known of either side of a definition from which no union is reached. -/
structure PlainSide (table : TypeTable) (s : Section) : Prop where
  valid : s.Valid table
  sequence : s.isUnion = false
  embeds : ∀ f ∈ s.fields, ∀ id ∈ f.type.references, id < table.size ∧ table.UnionFree id

theorem Built.plainSide {table : TypeTable} (htable : table.Built) {i : Nat} {d : Definition}
    (hd : table.definitions[i]? = some d) (hfree : table.UnionFree i) {s : Section}
    (hs : s ∈ [d.request, d.response.getD {}]) : table.PlainSide s := by
  -- The response of a message is no section of it, but an empty one.
  have hside : s ∈ d.sections ∨ s = {} := by
    rcases List.mem_pair.mp hs with rfl | rfl
    · exact Or.inl List.mem_cons_self
    · cases hresponse : d.response with
      | none => exact Or.inr rfl
      | some response =>
        refine Or.inl (List.mem_cons_of_mem _ ?_)
        rw [hresponse]
        exact List.mem_singleton.mpr rfl
  rcases hside with hside | rfl
  · have hvalid := htable.valid (List.mem_of_getElem? hd) s hside
    refine ⟨hvalid, hfree i .refl d hd s hside, fun f hf id hid => ?_⟩
    obtain ⟨target, htarget, -⟩ := (hvalid.types f hf).references id hid
    refine ⟨(List.getElem?_eq_some_iff.mp htarget).1, hfree.of_refersTo ?_⟩
    exact ⟨d, hd, s, hside, f, hf, hid⟩
  · exact ⟨(SectionDraft.valid_empty table).toSection, rfl, fun f hf => absurd hf List.not_mem_nil⟩

/--
If no union is reached from a definition that a session has loaded, then the payloads of either side
are no shorter than its least length and no longer than its greatest one, both in whole bytes.  With
or without unions, no payload of a layout is longer than the longest one of its catalogue.  The
latter holds of every table whose arrays are small enough to be measured, as those are that a
session has loaded.
-/
theorem size_of_serialize [HalfConversion] (root : Path) (calls : List Load.Call) :
    let table := Load.tableAfter root calls
    (∀ (i : Nat) (d : Definition), table.definitions[i]? = some d → table.UnionFree i →
      ∀ (parent : String), ∀ s ∈ [d.request, d.response.getD {}], ∀ template f : Frame,
        template.SerializesTo (table.flatten s.fields parent) f →
          bytesFor (s.least table) ≤ f.payload.size ∧
            f.payload.size ≤ bytesFor (s.greatest table)) ∧
    table.Sized ∧
    ∀ other : TypeTable, other.Sized → ∀ catalogue, Catalogue.ofTable other = .ok catalogue →
      ∀ channels, catalogue.HasSide channels → ∀ template f : Frame,
        template.SerializesTo channels f → f.payload.size ≤ catalogue.maxPayloadBytes := by
  intro table
  have hbuilt : table.Built := Load.built_tableAfter root calls
  refine ⟨?_, hbuilt.sized, ?_⟩
  · intro i d hd hfree parent s hs template f hserialize
    obtain ⟨hvalid, hunion, hembeds⟩ := hbuilt.plainSide hd hfree hs
    have hfits : ∀ c ∈ table.flatten s.fields parent, c.Fits :=
      fits_flattenFields (fits_templates hbuilt.sized) (fun f hf => (hvalid.types f hf).sized)
        parent
    have hleast := hvalid.least_le_leastTotal hunion
      (fun f hf id hid => hbuilt.boundsAt (hembeds f hf id hid).1 (hembeds f hf id hid).2) parent
    have hgreatest := hvalid.greatest?_eq_greatestTotal hunion
      (fun f hf id hid => hbuilt.measuresAt (hembeds f hf id hid).1 (hembeds f hf id hid).2) parent
    obtain ⟨hlower, hupper⟩ := Channel.size_of_serializesTo hfits hserialize
    refine ⟨(bytesFor_mono hleast).trans hlower, ?_⟩
    rw [Section.greatest, hgreatest]
    exact hupper
  · intro other hsized catalogue hcatalogue channels hside template f hserialize
    have hfits := hside.fits (Catalogue.fits_of_ofTable hsized hcatalogue)
    exact (Channel.size_of_serializesTo hfits hserialize).2.trans hside.payloadBytes_le

/-- References lead backwards, so a union behind a definition is not reached from it. -/
theorem unionFree_of_le {table : TypeTable} {i : Nat}
    (h : ∀ j ≤ i, ∀ d, table.definitions[j]? = some d → ∀ s ∈ d.sections, s.isUnion = false) :
    table.UnionFree i := by
  intro j hreach
  have hle : j ≤ i := by
    induction hreach with
    | refl => exact Nat.le_refl i
    | tail _ hrefers ih => exact (Nat.le_of_lt (lt_of_refersTo hrefers)).trans ih
  exact h j hle

open scoped HalfConversion in
/-- Arrays that are filled in part, in a definition that is embedded by one with a union. -/
theorem size_of_serialize_nested :
    let root := Path.ofText "r"
    let tree := FileTree.ofTexts [("r/A.uavcan", "uint8[<=3] a\nvoid3\n"),
      ("r/100.B.1.0.uavcan", "bool b\nA c\nA[2] d\nfloat16[2] e\nint5[<=4] f\n"),
      ("r/200.C.1.0.uavcan", "@union\nB b\nuint64[<=9] c\n")]
    let table := Load.tableAfter root [.whole tree]
    let values := Bindings.ofList (["B.b", "B.c.a_0", "B.d_1.a_0", "B.e_0", "B.e_1", "B.f_0"].map
      fun name => (name, Double.ofNat 7))
    ∃ d f catalogue, table.definitions[1]? = some d ∧ table.UnionFree 1 ∧
      (Frame.message 100 5 2).serializeNamed (table.flatten d.request.fields "B") values = .ok f ∧
      bytesFor (d.request.least table) = 7 ∧ 7 ≤ f.payload.size ∧
      bytesFor (d.request.greatest table) = 19 ∧ f.payload.size ≤ 19 ∧
      Catalogue.ofTable table = .ok catalogue ∧ f.payload.size ≤ catalogue.maxPayloadBytes := by
  intro root tree table values
  let template := Frame.message 100 5 2
  obtain ⟨hbounds, hsized, hlongest⟩ := size_of_serialize root [.whole tree]
  have hchecked : (table.definitions[1]?).map (fun d =>
      let channels := table.flatten d.request.fields "B"
      ((template.serializeNamed channels values).map fun f => f.payload.size,
        bytesFor (d.request.least table), bytesFor (d.request.greatest table),
        (Catalogue.ofTable table).map fun c => decide (channels ∈ c.messages.map (·.channels)))) =
      some (.ok 11, 7, 19, .ok true) := by
    decide +kernel
  have hunion : ∀ d ∈ table.definitions.take 2, ∀ s ∈ d.sections, s.isUnion = false := by
    decide +kernel
  obtain ⟨d, hd, hside⟩ := Option.map_eq_some_iff.mp hchecked
  simp only [Prod.mk.injEq, map_eq_ok_iff, decide_eq_true_eq, List.mem_map] at hside
  obtain ⟨⟨f, hf, -⟩, hleast, hgreatest, catalogue, hcatalogue, m, hm, hchannels⟩ := hside
  have hfree : table.UnionFree 1 := by
    refine unionFree_of_le fun j hj d hd => ?_
    refine hunion d (List.mem_of_getElem? (i := j) ?_)
    rw [List.getElem?_take_of_lt (Nat.lt_succ_of_le hj), hd]
  have hserialize : template.SerializesTo (table.flatten d.request.fields "B") f :=
    Or.inl ⟨values, hf⟩
  have hdeclared := hbounds 1 d hd hfree "B" d.request List.mem_cons_self template f hserialize
  rw [hleast, hgreatest] at hdeclared
  have hmax := hlongest table hsized catalogue hcatalogue _ (Or.inl ⟨m, hm, hchannels.symm⟩)
    template f hserialize
  exact ⟨d, f, catalogue, hd, hfree, hf, hleast, hdeclared.1, hgreatest, hdeclared.2, hcatalogue,
    hmax⟩

end TypeTable

end BusSchema
