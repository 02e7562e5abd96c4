import BusSchema.Proofs.Payload.RoundTrip
import BusSchema.Proofs.Schema.Sizes
import BusSchema.Transfer.Receiver

/-!
# How long payloads get

The channels of a loaded schema are ones that the codec can handle, and none of them saturates when
it is measured.  So the payload that a layout of the catalogue writes is never longer than the
longest payload of the catalogue (`size_le_maxPayloadBytes`).
-/

namespace BusSchema

namespace Primitive

theorem kind_ne_void (p : Primitive) : p.kind ≠ .void := by
  intro hkind
  have hallowed := p.allowed
  rw [hkind] at hallowed
  exact hallowed

end Primitive

namespace Channel

/-- The channel is one of a schema: nothing saturates when it is measured. -/
structure Fits (c : Channel) : Prop where
  width : c.width ≤ maxValueWidth
  countWidth_le : c.countWidth ≤ maxValueWidth
  array : ∀ capacity, c.capacity = some capacity →
    c.isVoid = false ∧ c.width * capacity + c.countWidth ≤ max32

theorem Fits.isCodable {c : Channel} (hc : c.Fits) : c.IsCodable :=
  ⟨fun _ => hc.width, hc.countWidth_le⟩

theorem fits_scalar {width : Nat} (hwidth : width ≤ maxValueWidth) (kind : ScalarKind)
    (name : String) : (scalar kind width name).Fits :=
  ⟨hwidth, Nat.zero_le _, fun _ h => nomatch h⟩

theorem fits_padding {width : Nat} (hwidth : width ≤ maxValueWidth) : (padding width).Fits :=
  ⟨hwidth, Nat.zero_le _, fun _ h => nomatch h⟩

theorem fits_dynamicArray (p : Primitive) (name : String) {capacity : Nat}
    (hcapacity : capacity ≤ max32) (h : capacity * p.width + ceilLog2 capacity ≤ max32) :
    (dynamicArray p.kind p.width name capacity).Fits := by
  have hcodable := isCodable_dynamicArray p.width_le hcapacity p.kind name
  refine ⟨p.width_le, hcodable.countWidth_le, ?_⟩
  intro _ hsome
  cases hsome
  refine ⟨?_, ?_⟩
  · simp [isVoid, dynamicArray, p.kind_ne_void]
  · rw [Nat.mul_comm]
    exact h

theorem Fits.below {c : Channel} (hc : c.Fits) (path : String) : (c.below path).Fits :=
  ⟨hc.width, hc.countWidth_le, hc.array⟩

/-- A channel with values that it admits takes no more bits than its measure says. -/
theorem Fits.bitsOf_le {c : Channel} (hc : c.Fits) {count : Nat} (hadmits : c.Admits count) :
    c.bitsOf count ≤ c.greatest := by
  unfold bitsOf greatest
  unfold Admits at hadmits
  cases hcapacity : c.capacity with
  | none =>
    have hdynamic : c.isDynamic = false := by simp [isDynamic_eq, hcapacity]
    rw [countWidth_eq_zero hdynamic]
    cases hvoid : c.isVoid with
    | true => simp
    | false =>
      have hone : count = 1 := by simpa [hvoid, hdynamic] using hadmits
      simp [hone]
  | some capacity =>
    obtain ⟨hvoid, hbits⟩ := hc.array capacity hcapacity
    have hdynamic : c.isDynamic = true := by simp [isDynamic_eq, hcapacity]
    have hcount : count ≤ capacity := by
      simp only [hvoid, hdynamic, Bool.false_eq_true, if_false, if_true, maxCount, hcapacity,
        Option.getD_some] at hadmits
      exact Nat.le_trans hadmits (Nat.min_le_left _ _)
    have helements : count * c.width ≤ c.width * capacity := by
      rw [Nat.mul_comm]
      exact Nat.mul_le_mul_left c.width hcount
    rw [hvoid, if_neg (by simp)]
    simp only [saturate32]
    omega

end Channel

/-! ## The channels of a schema -/

/-- The channel of the number of compounds in an array, if the array has one. -/
def countChannels (width : Nat) (path : String) : List Channel :=
  if width = 0 then [] else [Channel.scalar .unsigned width (path ++ "_count")]

theorem mem_countChannels {width : Nat} {path : String} {c : Channel}
    (hc : c ∈ countChannels width path) : c = Channel.scalar .unsigned width (path ++ "_count") := by
  unfold countChannels at hc
  split at hc
  · cases hc
  · exact List.mem_singleton.mp hc

theorem mem_elementChannels {channels : List Channel} {path : String} {count : Nat} {c : Channel}
    (hc : c ∈ elementChannels channels path count) :
    ∃ i, ∃ inner ∈ channels, c = inner.below (indexedName path i) := by
  unfold elementChannels at hc
  split at hc
  · cases hc
  · obtain ⟨i, -, hc⟩ := List.mem_flatMap.mp hc
    obtain ⟨inner, hinner, rfl⟩ := List.mem_map.mp hc
    exact ⟨i, inner, hinner, rfl⟩

namespace FieldType

theorem fits_flattenWith {compounds : List Template}
    (hcompounds : ∀ template ∈ compounds, ∀ path, ∀ c ∈ template path, c.Fits)
    {type : FieldType} (htype : type.Sized) (path : String) :
    ∀ c ∈ type.flattenWith compounds path, c.Fits := by
  have hcompound : ∀ (id : Nat) (path : String) (c : Channel),
      c ∈ ((compounds[id]?).map fun template => template path).getD [] → c.Fits := by
    intro id path c hc
    cases hid : compounds[id]? with
    | none => simp [hid] at hc
    | some template =>
      rw [hid] at hc
      exact hcompounds template (List.mem_of_getElem? hid) path c hc
  intro c hc
  cases type with
  | padding p =>
    rw [List.mem_singleton.mp hc]
    exact Channel.fits_padding p.allowed.2
  | primitive p =>
    rw [List.mem_singleton.mp hc]
    exact Channel.fits_scalar p.width_le p.kind path
  | compound id => exact hcompound id path c hc
  | array element mode size =>
    cases element with
    | padding p => cases hc
    | array inner innerMode innerSize => cases hc
    | primitive p =>
      cases mode with
      | static =>
        obtain ⟨i, -, rfl⟩ := List.mem_map.mp hc
        exact Channel.fits_scalar p.width_le p.kind _
      | dynamic =>
        rw [List.mem_singleton.mp hc]
        exact Channel.fits_dynamicArray p path htype.1 (htype.2 p rfl rfl)
    | compound id =>
      rcases List.mem_append.mp hc with hc | hc
      · rw [mem_countChannels hc]
        refine Channel.fits_scalar ?_ .unsigned _
        cases mode with
        | static => exact Nat.zero_le _
        | dynamic => exact Nat.le_trans (Channel.ceilLog2_le htype.1) (by decide)
      · obtain ⟨i, inner, hinner, rfl⟩ := mem_elementChannels hc
        exact (hcompound id "" inner hinner).below _

end FieldType

theorem fits_flattenFields {compounds : List Template}
    (hcompounds : ∀ template ∈ compounds, ∀ path, ∀ c ∈ template path, c.Fits)
    {fields : List Field} (hfields : ∀ f ∈ fields, f.type.Sized) (parent : String) :
    ∀ c ∈ flattenFields compounds fields parent, c.Fits := by
  intro c hc
  obtain ⟨f, hf, hc⟩ := List.mem_flatMap.mp hc
  exact FieldType.fits_flattenWith hcompounds (hfields f hf) _ c hc

theorem TypeTable.fits_templates {table : TypeTable} (htable : table.Sized) :
    ∀ template ∈ table.templates, ∀ path, ∀ c ∈ template path, c.Fits := by
  suffices general : ∀ definitions : List Definition,
      (∀ d ∈ definitions, d.AllTypes FieldType.Sized) → ∀ compounds : List Template,
      (∀ template ∈ compounds, ∀ path, ∀ c ∈ template path, c.Fits) →
      ∀ template ∈ definitions.foldl
        (fun compounds d => compounds ++ [flattenFields compounds d.request.fields]) compounds,
        ∀ path, ∀ c ∈ template path, c.Fits by
    exact general table.definitions htable [] (by simp)
  intro definitions
  induction definitions with
  | nil => exact fun _ compounds hcompounds => hcompounds
  | cons d rest ih =>
    intro hdefinitions compounds hcompounds
    obtain ⟨hd, hrest⟩ := List.forall_mem_cons.mp hdefinitions
    apply ih hrest
    intro template htemplate
    rcases List.mem_append.mp htemplate with htemplate | htemplate
    · exact hcompounds template htemplate
    · rw [List.mem_singleton.mp htemplate]
      exact fits_flattenFields hcompounds hd.1

namespace Catalogue

/-- The channels of all layouts are ones of a schema. -/
structure Fits (catalogue : Catalogue) : Prop where
  messages : ∀ m ∈ catalogue.messages, ∀ c ∈ m.channels, c.Fits
  requests : ∀ s ∈ catalogue.services, ∀ c ∈ s.request, c.Fits
  responses : ∀ s ∈ catalogue.services, ∀ c ∈ s.response, c.Fits

theorem mem_insertByKey_iff {α : Type} {key : α → Nat} {a b : α} {items : List α} :
    b ∈ insertByKey key a items ↔ b = a ∨ b ∈ items := by
  induction items with
  | nil => simp [insertByKey]
  | cons first rest ih =>
    rw [insertByKey]
    split
    · rw [List.mem_cons]
    · rw [List.mem_cons, ih, List.mem_cons]
      exact or_left_comm

/-- Every layout is that of a routable definition of its kind in the table. -/
structure LaysOut (table : TypeTable) (catalogue : Catalogue) : Prop where
  messages : ∀ m ∈ catalogue.messages, ∃ d ∈ table.definitions,
    d.isRoutable = true ∧ d.response = none ∧ m = messageLayout table.templates d
  services : ∀ s ∈ catalogue.services, ∃ d ∈ table.definitions,
    d.isRoutable = true ∧ ∃ response ∈ d.response, s = serviceLayout table.templates d response

/-- Adding a definition adds its layout, if it is routable, and nothing else. -/
theorem mem_add {compounds : List Template} {catalogue next : Catalogue} {d : Definition}
    (h : add compounds catalogue d = .ok next) :
    (∀ m ∈ next.messages, m ∈ catalogue.messages ∨
        d.isRoutable = true ∧ d.response = none ∧ m = messageLayout compounds d) ∧
      ∀ s ∈ next.services, s ∈ catalogue.services ∨
        d.isRoutable = true ∧ ∃ response ∈ d.response, s = serviceLayout compounds d response := by
  unfold add at h
  split at h
  · cases h
    exact ⟨fun _ => Or.inl, fun _ => Or.inl⟩
  next hroutable =>
  have hroutable : d.isRoutable = true := by simpa using hroutable
  split at h
  · next hresponse =>
    split at h
    · cases h
    · cases h
      refine ⟨fun m hm => ?_, fun _ => Or.inl⟩
      rcases mem_insertByKey_iff.mp hm with rfl | hm
      · exact Or.inr ⟨hroutable, hresponse, rfl⟩
      · exact Or.inl hm
  · next response hresponse =>
    split at h
    · cases h
    · cases h
      refine ⟨fun _ => Or.inl, fun s hs => ?_⟩
      rcases mem_insertByKey_iff.mp hs with rfl | hs
      · exact Or.inr ⟨hroutable, response, hresponse, rfl⟩
      · exact Or.inl hs

theorem laysOut_add {table : TypeTable} {catalogue next : Catalogue}
    (hcatalogue : catalogue.LaysOut table) {d : Definition} (hd : d ∈ table.definitions)
    (h : add table.templates catalogue d = .ok next) : next.LaysOut table := by
  obtain ⟨hmessages, hservices⟩ := mem_add h
  refine ⟨fun m hm => ?_, fun s hs => ?_⟩
  · rcases hmessages m hm with hm | hadded
    · exact hcatalogue.messages m hm
    · exact ⟨d, hd, hadded⟩
  · rcases hservices s hs with hs | hadded
    · exact hcatalogue.services s hs
    · exact ⟨d, hd, hadded⟩

theorem laysOut_of_ofTable {table : TypeTable} {catalogue : Catalogue}
    (h : ofTable table = .ok catalogue) : catalogue.LaysOut table := by
  have hempty : LaysOut table {} := by
    constructor <;> intro _ hmem <;> cases hmem
  refine foldlM_induction ?_ hempty h
  intro start d hd next hstart hnext
  exact laysOut_add hstart hd hnext

theorem fits_of_ofTable {table : TypeTable} (htable : table.Sized) {catalogue : Catalogue}
    (h : ofTable table = .ok catalogue) : catalogue.Fits := by
  have htemplates := TypeTable.fits_templates htable
  have hlayouts := laysOut_of_ofTable h
  refine ⟨?_, ?_, ?_⟩
  · intro m hm
    obtain ⟨d, hd, -, -, rfl⟩ := hlayouts.messages m hm
    exact fits_flattenFields htemplates (htable d hd).1 d.name
  · intro s hs
    obtain ⟨d, hd, -, response, hresponse, rfl⟩ := hlayouts.services s hs
    exact fits_flattenFields htemplates (htable d hd).1 d.name
  · intro s hs
    obtain ⟨d, hd, -, response, hresponse, rfl⟩ := hlayouts.services s hs
    exact fits_flattenFields htemplates ((htable d hd).2 response hresponse) d.name

end Catalogue

/-! ## The longest payload -/

theorem Allotment.bits_le {allotment : Allotment} (hfits : ∀ entry ∈ allotment, entry.1.Fits)
    (hadmitted : allotment.Admitted) :
    allotment.bits ≤ total ((allotment.map Prod.fst).map Channel.greatest) := by
  induction allotment with
  | nil => exact Nat.le_refl 0
  | cons entry rest ih =>
    obtain ⟨hfirst, hrest⟩ := List.forall_mem_cons.mp hfits
    obtain ⟨hadmits, hrestAdmitted⟩ := admitted_cons_iff.mp hadmitted
    have hbits := hfirst.bitsOf_le hadmits
    have hbitsRest := ih hrest hrestAdmitted
    simp only [bits_cons, List.map_cons, total, List.foldr_cons] at hbitsRest ⊢
    omega

/-- A payload is no longer than the longest one of its channels. -/
theorem Payload.size_le_payloadBytes [HalfConversion] {channels : List Channel}
    (hfits : ∀ c ∈ channels, c.Fits) {values : NamedValues} {payload : Bytes}
    (h : writeNamed channels values = .ok payload) :
    payload.size ≤ Catalogue.payloadBytes channels := by
  obtain ⟨hadmitted, rfl⟩ := writeNamed_eq_ok_iff.mp h
  have hchannels := channels_ofNamed channels values
  have hentries : ∀ entry ∈ Allotment.ofNamed channels values, entry.1.Fits := by
    intro entry hentry
    apply hfits
    rw [← hchannels]
    exact List.mem_map_of_mem hentry
  have htight := tight_puts BitWriter.tight_empty fun entry hentry =>
    (hentries entry hentry).isCodable
  have hbits := Allotment.bits_le hentries hadmitted
  rw [hchannels] at hbits
  rw [htight.size, offset_puts]
  unfold Bits.bytesFor Catalogue.payloadBytes
  simp only [Nat.zero_add]
  omega

namespace Catalogue

/-- The channels are those of a message or of one side of a service. -/
def HasSide (catalogue : Catalogue) (channels : List Channel) : Prop :=
  (∃ m ∈ catalogue.messages, channels = m.channels) ∨
    ∃ s ∈ catalogue.services, channels = s.request ∨ channels = s.response

theorem HasSide.fits {catalogue : Catalogue} (hcatalogue : catalogue.Fits)
    {channels : List Channel} (h : catalogue.HasSide channels) : ∀ c ∈ channels, c.Fits := by
  rcases h with ⟨m, hm, rfl⟩ | ⟨s, hs, rfl | rfl⟩
  · exact hcatalogue.messages m hm
  · exact hcatalogue.requests s hs
  · exact hcatalogue.responses s hs

theorem HasSide.payloadBytes_le {catalogue : Catalogue} {channels : List Channel}
    (h : catalogue.HasSide channels) : payloadBytes channels ≤ catalogue.maxPayloadBytes := by
  apply FileTree.le_maximum
  rcases h with ⟨m, hm, rfl⟩ | ⟨s, hs, hchannels⟩
  · exact List.mem_append_left _ (List.mem_map_of_mem hm)
  · refine List.mem_append_right _ (List.mem_flatMap.mpr ⟨s, hs, ?_⟩)
    rcases hchannels with rfl | rfl <;> simp

/-- What a layout consists of is the channels of a message or of one side of a service. -/
theorem channels_of_layoutOf? {catalogue : Catalogue} {f : Frame} {layout : NamedLayout}
    (h : catalogue.layoutOf? f = some layout) : catalogue.HasSide layout.channels := by
  unfold layoutOf? at h
  split at h
  · obtain ⟨s, hs, rfl⟩ := Option.map_eq_some_iff.mp h
    refine Or.inr ⟨s, List.mem_of_find?_eq_some hs, ?_⟩
    cases f.isRequest with
    | true => exact Or.inl rfl
    | false => exact Or.inr rfl
  · obtain ⟨m, hm, rfl⟩ := Option.map_eq_some_iff.mp h
    exact Or.inl ⟨m, List.mem_of_find?_eq_some hm, rfl⟩

theorem fits_of_layoutOf? {catalogue : Catalogue} (hcatalogue : catalogue.Fits) {f : Frame}
    {layout : NamedLayout} (h : catalogue.layoutOf? f = some layout) :
    ∀ c ∈ layout.channels, c.Fits :=
  (channels_of_layoutOf? h).fits hcatalogue

/-- What a layout of the catalogue writes is no longer than the catalogue says. -/
theorem size_le_maxPayloadBytes [HalfConversion] {catalogue : Catalogue}
    (hcatalogue : catalogue.Fits) {f : Frame} {layout : NamedLayout}
    (hlayout : catalogue.layoutOf? f = some layout) {values : NamedValues} {payload : Bytes}
    (h : Payload.writeNamed layout.channels values = .ok payload) :
    payload.size ≤ catalogue.maxPayloadBytes :=
  Nat.le_trans (Payload.size_le_payloadBytes (fits_of_layoutOf? hcatalogue hlayout) h)
    (channels_of_layoutOf? hlayout).payloadBytes_le

end Catalogue

end BusSchema
