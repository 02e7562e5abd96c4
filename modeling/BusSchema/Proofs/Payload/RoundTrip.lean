import BusSchema.Proofs.Payload.Writing

/-!
# Reading what was written

Bytes that agree with a writer after an allotment hold that allotment, each value as it comes out
of the codec (`Allotment.ofBytes_of_agrees`).  The main statement is `parse_of_serialize`: a frame
that was serialised, in order or by name, is parsed to the bindings of its values.
-/

namespace BusSchema

open Bits BitWriter

namespace Payload

variable [HalfConversion]

/-! ## What writing a channel does to the writer -/

theorem extends_writeValues (c : Channel) (values : List Double) (w : BitWriter) :
    w.Extends (values.foldl (writeValue c) w) := by
  induction values generalizing w with
  | nil => exact Extends.refl w
  | cons value rest ih => exact (extends_write w _ _).trans (ih _)

theorem tight_writeValues {c : Channel} (hwidth : c.width ≤ maxValueWidth) (values : List Double)
    {w : BitWriter} (hw : w.Tight) : (values.foldl (writeValue c) w).Tight := by
  induction values generalizing w with
  | nil => exact hw
  | cons value rest ih => exact ih (tight_write hw hwidth _)

theorem offset_writeValues (c : Channel) (values : List Double) (w : BitWriter) :
    (values.foldl (writeValue c) w).offset = w.offset + values.length * c.width := by
  induction values generalizing w with
  | nil => simp
  | cons value rest ih =>
    rw [List.foldl_cons, ih, List.length_cons, Nat.succ_mul]
    simp only [writeValue, BitWriter.write]
    omega

theorem extends_put (w : BitWriter) (entry : Channel × List Double) :
    w.Extends (put w entry) := by
  unfold put
  split
  · exact extends_skip w _
  · split
    · exact (extends_write w _ _).trans (extends_writeValues _ _ _)
    · exact extends_writeValues _ _ _

theorem tight_put {w : BitWriter} (hw : w.Tight) {entry : Channel × List Double}
    (hc : entry.1.IsCodable) : (put w entry).Tight := by
  unfold put
  split
  · exact tight_skip hw _
  · next hvoid =>
    have hwidth := hc.width (Bool.eq_false_of_not_eq_true hvoid)
    split
    · exact tight_writeValues hwidth _ (tight_write hw hc.countWidth_le _)
    · exact tight_writeValues hwidth _ hw

theorem offset_put (w : BitWriter) (entry : Channel × List Double) :
    (put w entry).offset = w.offset + entry.1.bitsOf entry.2.length := by
  unfold put Channel.bitsOf
  split
  · rfl
  · rw [offset_writeValues]
    split
    · simp only [BitWriter.write]
      omega
    · next hdynamic =>
      rw [Channel.countWidth_eq_zero (Bool.eq_false_of_not_eq_true hdynamic), Nat.zero_add]

theorem extends_puts (w : BitWriter) (allotment : Allotment) :
    w.Extends (allotment.foldl put w) := by
  induction allotment generalizing w with
  | nil => exact Extends.refl w
  | cons entry rest ih => exact (extends_put w entry).trans (ih _)

theorem tight_puts {w : BitWriter} (hw : w.Tight) {allotment : Allotment}
    (hcodable : ∀ entry ∈ allotment, entry.1.IsCodable) : (allotment.foldl put w).Tight := by
  induction allotment generalizing w with
  | nil => exact hw
  | cons entry rest ih =>
    obtain ⟨hc, hrest⟩ := List.forall_mem_cons.mp hcodable
    exact ih (tight_put hw hc) hrest

theorem offset_puts (w : BitWriter) (allotment : Allotment) :
    (allotment.foldl put w).offset = w.offset + allotment.bits := by
  induction allotment generalizing w with
  | nil => rfl
  | cons entry rest ih =>
    rw [List.foldl_cons, ih, offset_put, Allotment.bits_cons, Nat.add_assoc]

/-! ## Reading a channel back -/

theorem lowBits_encode (kind : ScalarKind) (width : Nat) (value : Double) :
    lowBits width (kind.encode width value) = kind.encode width value :=
  Nat.mod_mod _ _

theorem elementsAt_of_agrees {c : Channel} (hwidth : c.width ≤ maxValueWidth) {bytes : Bytes}
    {values : List Double} {w : BitWriter}
    (h : Agrees bytes (values.foldl (writeValue c) w)) :
    c.elementsAt bytes w.offset values.length = values.map c.transmit := by
  induction values generalizing w with
  | nil => rfl
  | cons value rest ih =>
    have hfirst : Agrees bytes (w.write c.width (c.kind.encode c.width value)) :=
      h.of_extends (extends_writeValues c rest _)
    have hrest := ih h
    rw [List.length_cons, Channel.elementsAt_succ, List.map_cons,
      gather_of_agrees_write hwidth hfirst, lowBits_encode]
    exact congrArg _ hrest

theorem agrees_count {c : Channel} (hvoid : c.isVoid = false) (hdynamic : c.isDynamic = true)
    {bytes : Bytes} {values : List Double} {w : BitWriter} (h : Agrees bytes (put w (c, values))) :
    Agrees bytes (w.write c.countWidth values.length) := by
  refine h.of_extends ?_
  simp only [put, hvoid, hdynamic, Bool.false_eq_true, if_false, if_true]
  exact extends_writeValues c values _

theorem countAt_of_agrees {c : Channel} (hc : c.IsCodable) {bytes : Bytes}
    {values : List Double} {w : BitWriter} (hadmits : c.Admits values.length)
    (h : Agrees bytes (put w (c, values))) : c.countAt bytes w.offset = values.length := by
  unfold Channel.Admits at hadmits
  unfold Channel.countAt
  cases hvoid : c.isVoid with
  | true =>
    rw [hvoid] at hadmits
    exact hadmits.symm
  | false =>
    cases hdynamic : c.isDynamic with
    | false =>
      rw [hvoid, hdynamic] at hadmits
      exact hadmits.symm
    | true =>
      -- The greatest count is one that the prefix has a pattern for, so nothing is cut off.
      simp only [hvoid, hdynamic, Bool.false_eq_true, if_false, if_true] at hadmits ⊢
      rw [gather_of_agrees_write hc.countWidth_le (agrees_count hvoid hdynamic h), lowBits]
      exact Nat.mod_eq_of_lt (Nat.lt_of_le_of_lt hadmits Channel.maxCount_lt)

theorem valuesAt_of_agrees {c : Channel} (hc : c.IsCodable) {bytes : Bytes}
    {values : List Double} {w : BitWriter} (hadmits : c.Admits values.length)
    (h : Agrees bytes (put w (c, values))) :
    c.valuesAt bytes w.offset = values.map c.transmit := by
  rw [Channel.valuesAt, countAt_of_agrees hc hadmits h]
  cases hvoid : c.isVoid with
  | true =>
    have hnil : values = [] := by simpa [Channel.Admits, hvoid] using hadmits
    subst hnil
    rfl
  | false =>
    simp only [put, hvoid, Bool.false_eq_true, if_false] at h
    cases hdynamic : c.isDynamic with
    | false =>
      rw [Channel.countWidth_eq_zero hdynamic, Nat.add_zero]
      rw [hdynamic] at h
      exact elementsAt_of_agrees (hc.width hvoid) h
    | true =>
      have hoffset : (w.write c.countWidth values.length).offset = w.offset + c.countWidth := rfl
      rw [← hoffset]
      rw [hdynamic] at h
      exact elementsAt_of_agrees (hc.width hvoid) h

end Payload

namespace Allotment

open Payload

variable [HalfConversion]

/-- Bytes that agree with a writer after an allotment hold that allotment. -/
theorem ofBytes_of_agrees {allotment : Allotment}
    (hcodable : ∀ entry ∈ allotment, entry.1.IsCodable) (hadmitted : allotment.Admitted)
    {bytes : Bytes} {w : BitWriter} (h : Agrees bytes (allotment.foldl put w)) :
    ofBytes bytes (allotment.map Prod.fst) w.offset = allotment.transmit := by
  induction allotment generalizing w with
  | nil => rfl
  | cons entry rest ih =>
    obtain ⟨c, values⟩ := entry
    obtain ⟨hc, hrest⟩ := List.forall_mem_cons.mp hcodable
    obtain ⟨hadmits, hrestAdmitted⟩ := admitted_cons_iff.mp hadmitted
    have hfirst : Agrees bytes (put w (c, values)) := h.of_extends (extends_puts _ rest)
    have ih := ih hrest hrestAdmitted h
    rw [offset_put] at ih
    rw [List.map_cons, ofBytes, valuesAt_of_agrees hc hadmits hfirst,
      countAt_of_agrees hc hadmits hfirst, ih]
    rfl

theorem admitted_transmit {allotment : Allotment} (h : allotment.Admitted) :
    allotment.transmit.Admitted := by
  intro entry hentry
  obtain ⟨original, horiginal, rfl⟩ := List.mem_map.mp hentry
  simpa using h original horiginal

theorem bits_transmit (allotment : Allotment) : allotment.transmit.bits = allotment.bits := by
  simp [bits, transmit, Function.comp_def]

end Allotment

namespace Payload

theorem channels_ofNamed (channels : List Channel) (values : NamedValues) :
    (Allotment.ofNamed channels values).map Prod.fst = channels := by
  simp [Allotment.ofNamed, Function.comp_def]

theorem channels_ofOrdered (channels : List Channel) (values : List Double) :
    (Allotment.ofOrdered channels values).map Prod.fst = channels := by
  induction channels generalizing values with
  | nil => rfl
  | cons c rest ih => rw [Allotment.ofOrdered, List.map_cons, ih]

theorem codable_of_channels {allotment : Allotment} {channels : List Channel}
    (hchannels : ∀ c ∈ channels, c.IsCodable) (h : allotment.map Prod.fst = channels) :
    ∀ entry ∈ allotment, entry.1.IsCodable := by
  subst h
  intro entry hentry
  exact hchannels entry.1 (List.mem_map_of_mem hentry)

section Conversion

variable [HalfConversion]

/-- An allotment that was written is read back, whatever bytes stand behind it. -/
theorem read_of_puts {allotment : Allotment}
    (hcodable : ∀ entry ∈ allotment, entry.1.IsCodable) (hadmitted : allotment.Admitted)
    (extra : Bytes) :
    read (allotment.map Prod.fst) ((allotment.foldl put {}).bytes ++ extra) =
      .ok (Bindings.ofList allotment.transmit.named) := by
  have htight : (allotment.foldl put {}).Tight := tight_puts tight_empty hcodable
  have hagrees := htight.agrees_append extra
  have hcontent := Allotment.ofBytes_of_agrees hcodable hadmitted hagrees
  have hchannels : ∀ c ∈ allotment.map Prod.fst, c.IsCodable := by
    intro c hc
    obtain ⟨entry, hentry, rfl⟩ := List.mem_map.mp hc
    exact hcodable entry hentry
  have hsize := hagrees.size
  rw [offset_puts] at hsize
  unfold read
  rw [(readChannels_eq_ok_iff hchannels (Nat.zero_le _)).mpr ⟨?_, ?_, rfl⟩]
  · rw [hcontent]
    rfl
  · rw [hcontent]
    exact Allotment.admitted_transmit hadmitted
  · rw [hcontent, Allotment.bits_transmit]
    exact hsize

/-- Values written by name are read back, whatever bytes stand behind them. -/
theorem read_of_writeNamed {channels : List Channel} (hchannels : ∀ c ∈ channels, c.IsCodable)
    {values : NamedValues} {payload : Bytes} (h : writeNamed channels values = .ok payload)
    (extra : Bytes) :
    read channels (payload ++ extra) =
      .ok (Bindings.ofList (Allotment.ofNamed channels values).transmit.named) := by
  obtain ⟨hadmitted, rfl⟩ := writeNamed_eq_ok_iff.mp h
  have hfirst := channels_ofNamed channels values
  have hread := read_of_puts (codable_of_channels hchannels hfirst) hadmitted extra
  rwa [hfirst] at hread

/-- Values written in channel order are read back, whatever bytes stand behind them. -/
theorem read_of_writeOrdered {channels : List Channel} (hchannels : ∀ c ∈ channels, c.IsCodable)
    {values : List Double} {payload : Bytes} (h : writeOrdered channels values = .ok payload)
    (extra : Bytes) :
    read channels (payload ++ extra) =
      .ok (Bindings.ofList (Allotment.ofOrdered channels values).transmit.named) := by
  obtain ⟨hadmitted, rfl⟩ := put_of_writeOrdered h
  have hfirst := channels_ofOrdered channels values
  have hread := read_of_puts (codable_of_channels hchannels hfirst) hadmitted extra
  rwa [hfirst] at hread

/--
A frame that was serialised, from values in channel order or by name, is parsed to the bindings of
those values, each as it comes out of the codec of its channel.  Where a name occurs twice, the
later channel has it.
-/
theorem parse_of_serialize {channels : List Channel} (hchannels : ∀ c ∈ channels, c.IsCodable)
    (template : Frame) :
    (∀ values f, template.serializeOrdered channels values = .ok f →
      f.parse channels =
        .ok (Bindings.ofList (Allotment.ofOrdered channels values).transmit.named)) ∧
    (∀ values f, template.serializeNamed channels values = .ok f →
      f.parse channels =
        .ok (Bindings.ofList (Allotment.ofNamed channels values).transmit.named)) := by
  constructor
  · intro values f h
    obtain ⟨payload, hwrite, rfl⟩ := map_eq_ok_iff.mp h
    simpa [Frame.parse] using read_of_writeOrdered hchannels hwrite #[]
  · intro values f h
    obtain ⟨payload, hwrite, rfl⟩ := map_eq_ok_iff.mp h
    simpa [Frame.parse] using read_of_writeNamed hchannels hwrite #[]

end Conversion

open scoped HalfConversion in
/-- A count and two elements, padding, and a scalar that takes the name of the first element. -/
theorem parse_of_serialize_repeated_name :
    let channels := [Channel.dynamicArray .unsigned 8 "a" 3, Channel.padding 5,
      Channel.scalar .signed 4 "a_0"]
    let values := [Double.ofNat 2, Double.ofNat 7, Double.ofNat 9, Double.ofInt (-3)]
    let template := Frame.message 1 1 0
    (∀ c ∈ channels, c.IsCodable) ∧
      template.serializeOrdered channels values =
        .ok { template with payload := #[30, 36, 128, 6] } ∧
      ({ template with payload := #[30, 36, 128, 6] } : Frame).parse channels =
        .ok (Bindings.ofList
          [("a_0", Double.ofNat 7), ("a_1", Double.ofNat 9), ("a_0", Double.ofInt (-3))]) := by
  have hcodable : ∀ c ∈ [Channel.dynamicArray .unsigned 8 "a" 3, Channel.padding 5,
      Channel.scalar .signed 4 "a_0"], c.IsCodable := by
    intro c hc
    simp only [List.mem_cons, List.not_mem_nil, or_false] at hc
    rcases hc with rfl | rfl | rfl
    · exact Channel.isCodable_dynamicArray (by decide) (by decide) _ _
    · exact Channel.isCodable_padding 5
    · exact Channel.isCodable_scalar (by decide) _ _
  have hnamed : (Allotment.ofOrdered [Channel.dynamicArray .unsigned 8 "a" 3, Channel.padding 5,
      Channel.scalar .signed 4 "a_0"]
      [Double.ofNat 2, Double.ofNat 7, Double.ofNat 9, Double.ofInt (-3)]).transmit.named =
      [("a_0", Double.ofNat 7), ("a_1", Double.ofNat 9), ("a_0", Double.ofInt (-3))] := by
    decide +kernel
  refine ⟨hcodable, by decide +kernel, ?_⟩
  rw [(parse_of_serialize hcodable (Frame.message 1 1 0)).1
    [Double.ofNat 2, Double.ofNat 7, Double.ofNat 9, Double.ofInt (-3)] _ (by decide +kernel),
    hnamed]

end Payload

end BusSchema
