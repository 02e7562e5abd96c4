import BusSchema.Proofs.Payload.RoundTrip

/-!
# Writing what was read

If no two channels share a name, the bindings that a payload is read as tell each channel its
values again, the number of elements of every array included (`Allotment.ofNamed_bindAll`).  So
the values can be written, and the new payload has the same bits as the old one except for the
padding and for what stood behind the last channel (`serializeNamed_of_parse`).
-/

namespace BusSchema

open Bits BitWriter

namespace Channel

/-- The names that values of the channel can have. -/
def HasKey (c : Channel) (key : String) : Prop :=
  c.isVoid = false ∧ if c.isDynamic then ∃ index, key = c.elementName index else key = c.name

/-- No name is one of two channels. -/
def DisjointKeys (channels : List Channel) : Prop :=
  channels.Pairwise fun c d => ∀ key, c.HasKey key → ¬d.HasKey key

/-- The raw value with an index among those that the channel has in the bytes from a position on. -/
def rawAt (c : Channel) (bytes : Bytes) (offset index : Nat) : Nat :=
  gather (bitAt bytes) (offset + c.countWidth + index * c.width) c.width

/-- Every raw value of the channels in the bytes from a position on is the pattern of its value. -/
def Exact [HalfConversion] (bytes : Bytes) : List Channel → Nat → Prop
  | [], _ => True
  | c :: rest, offset =>
    (∀ index < c.countAt bytes offset,
      c.kind.encode c.width (c.kind.decode c.width (c.rawAt bytes offset index)) =
        c.rawAt bytes offset index) ∧
      Exact bytes rest (offset + c.bitsOf (c.countAt bytes offset))

/--
The bit of the bytes belongs to a count or to a value, and neither to padding nor to what is behind
the last channel.
-/
def carries (bytes : Bytes) : List Channel → Nat → Nat → Bool
  | [], _, _ => false
  | c :: rest, offset, p =>
    let next := offset + c.bitsOf (c.countAt bytes offset)
    if p < next then !c.isVoid && decide (offset ≤ p) else carries bytes rest next p

theorem hasKey_of_mem_named {c : Channel} {values : List Double} {pair : String × Double}
    (h : pair ∈ c.named values) : c.HasKey pair.1 := by
  unfold named at h
  unfold HasKey
  cases hvoid : c.isVoid with
  | true => simp [hvoid] at h
  | false =>
    cases hdynamic : c.isDynamic with
    | true =>
      simp only [hvoid, hdynamic, Bool.false_eq_true, if_false, if_true] at h ⊢
      obtain ⟨index, -, rfl⟩ := List.mem_mapIdx.mp h
      exact ⟨trivial, index, rfl⟩
    | false =>
      simp only [hvoid, hdynamic, Bool.false_eq_true, if_false] at h ⊢
      obtain ⟨value, -, rfl⟩ := List.mem_map.mp h
      exact ⟨trivial, rfl⟩

theorem LooksUp.hasKey {c : Channel} {values : NamedValues} {key : String}
    (h : c.LooksUp values key) : c.HasKey key := by
  obtain ⟨hvoid, hkey⟩ := h
  refine ⟨hvoid, ?_⟩
  split at hkey
  · next hdynamic =>
    obtain ⟨_, _, index, _, hname⟩ := hkey
    rw [if_pos hdynamic]
    exact ⟨index, hname⟩
  · next hdynamic => rwa [if_neg hdynamic]

/-- A channel looks at its own names only. -/
theorem valuesIn_congr {c : Channel} {values other : NamedValues}
    (h : ∀ key, c.HasKey key → values.get? key = other.get? key) :
    c.valuesIn values = c.valuesIn other :=
  valuesIn_eq_of_looksUp fun key hkey => h key hkey.hasKey

theorem nodup_elementNames (c : Channel) (elements : List Double) :
    ((elements.mapIdx fun i value => (c.elementName i, value)).map Prod.fst).Nodup := by
  have hnames : (elements.mapIdx fun i value => (c.elementName i, value)).map Prod.fst =
      (List.range elements.length).map c.elementName := by
    apply List.ext_getElem <;> simp
  rw [hnames]
  exact List.Nodup.map (fun i j hij => elementName_inj.mp hij) List.nodup_range

/-- So many values are those of the channel; the elements of an array may be too many for it. -/
structure Fills (c : Channel) (count : Nat) : Prop where
  void : c.isVoid = true → count = 0
  scalar : c.isVoid = false → c.isDynamic = false → count = 1

theorem Admits.fills {c : Channel} {count : Nat} (h : c.Admits count) : c.Fills count := by
  unfold Admits at h
  constructor
  · intro hvoid
    simpa [hvoid] using h
  · intro hvoid hdynamic
    simpa [hvoid, hdynamic] using h

/-- A channel finds the values that were bound under its names, if there were none before. -/
theorem valuesIn_bindAll_named {c : Channel} {elements : List Double}
    (hfills : c.Fills elements.length) {values : NamedValues}
    (hfresh : ∀ key, c.HasKey key → values.get? key = none) :
    c.valuesIn (values.bindAll (c.named elements)) = elements := by
  unfold valuesIn named
  cases hvoid : c.isVoid with
  | true =>
    have hnil : elements = [] := List.length_eq_zero_iff.mp (hfills.void hvoid)
    simp [hnil]
  | false =>
    cases hdynamic : c.isDynamic with
    | true =>
      simp only [Bool.false_eq_true, if_false, if_true]
      rw [Payload.boundElements_eq_iff]
      refine ⟨fun index hindex => ?_, ?_⟩
      · apply Bindings.get?_bindAll_of_mem
        · exact nodup_elementNames c elements
        · exact List.mem_mapIdx.mpr ⟨index, hindex, rfl⟩
      · rw [Bindings.get?_bindAll_of_ne, hfresh _ ⟨hvoid, by simp [hdynamic]⟩]
        intro pair hpair hname
        obtain ⟨index, hindex, rfl⟩ := List.mem_mapIdx.mp hpair
        exact Nat.ne_of_lt hindex (elementName_inj.mp hname)
    | false =>
      obtain ⟨value, rfl⟩ := List.length_eq_one_iff.mp (hfills.scalar hvoid hdynamic)
      simp [Bindings.bindAll, Bindings.get?_bind]

end Channel

namespace Allotment

theorem hasKey_of_mem_named {allotment : Allotment} {pair : String × Double}
    (h : pair ∈ allotment.named) : ∃ c ∈ allotment.map Prod.fst, c.HasKey pair.1 := by
  obtain ⟨entry, hentry, hpair⟩ := List.mem_flatMap.mp h
  exact ⟨entry.1, List.mem_map_of_mem hentry, Channel.hasKey_of_mem_named hpair⟩

/-- Channels without common names find their values in the bindings of all values. -/
theorem ofNamed_bindAll_of_fills {allotment : Allotment}
    (hfills : ∀ entry ∈ allotment, entry.1.Fills entry.2.length)
    (hkeys : Channel.DisjointKeys (allotment.map Prod.fst)) {values : NamedValues}
    (hfresh : ∀ c ∈ allotment.map Prod.fst, ∀ key, c.HasKey key → values.get? key = none) :
    ofNamed (allotment.map Prod.fst) (values.bindAll allotment.named) = allotment := by
  induction allotment generalizing values with
  | nil => rfl
  | cons entry rest ih =>
    obtain ⟨c, elements⟩ := entry
    obtain ⟨hfillsFirst, hfillsRest⟩ := List.forall_mem_cons.mp hfills
    rw [List.map_cons] at hkeys hfresh
    obtain ⟨hapart, hrestKeys⟩ := List.pairwise_cons.mp hkeys
    obtain ⟨hfreshFirst, hfreshRest⟩ := List.forall_mem_cons.mp hfresh
    have hstillFresh : ∀ d ∈ rest.map Prod.fst, ∀ key, d.HasKey key →
        (values.bindAll (c.named elements)).get? key = none := by
      intro d hd key hkey
      rw [Bindings.get?_bindAll_of_ne, hfreshRest d hd key hkey]
      rintro pair hpair rfl
      exact hapart d hd pair.1 (Channel.hasKey_of_mem_named hpair) hkey
    have hrest := ih hfillsRest hrestKeys hstillFresh
    have hfirst : c.valuesIn ((values.bindAll (c.named elements)).bindAll (named rest)) =
        elements := by
      refine (Channel.valuesIn_congr fun key hkey => ?_).trans
        (Channel.valuesIn_bindAll_named hfillsFirst hfreshFirst)
      apply Bindings.get?_bindAll_of_ne
      rintro pair hpair rfl
      obtain ⟨d, hd, hpairKey⟩ := hasKey_of_mem_named hpair
      exact hapart d hd pair.1 hkey hpairKey
    rw [named_cons, Bindings.bindAll_append, List.map_cons, ofNamed, List.map_cons, hfirst]
    exact congrArg _ hrest

theorem ofNamed_bindAll {allotment : Allotment} (hadmitted : allotment.Admitted)
    (hkeys : Channel.DisjointKeys (allotment.map Prod.fst)) {values : NamedValues}
    (hfresh : ∀ c ∈ allotment.map Prod.fst, ∀ key, c.HasKey key → values.get? key = none) :
    ofNamed (allotment.map Prod.fst) (values.bindAll allotment.named) = allotment :=
  ofNamed_bindAll_of_fills (fun entry hentry => (hadmitted entry hentry).fills) hkeys hfresh

@[simp]
theorem channels_ofBytes [HalfConversion] (bytes : Bytes) (channels : List Channel) (offset : Nat) :
    (ofBytes bytes channels offset).map Prod.fst = channels := by
  induction channels generalizing offset with
  | nil => rfl
  | cons c rest ih => rw [ofBytes, List.map_cons, ih]

end Allotment

namespace Payload

section Conversion

variable [HalfConversion]

/-- Exact raw values are written with the bits that they were read from. -/
theorem bitAt_writeValues {c : Channel} (hwidth : c.width ≤ maxValueWidth) {bytes : Bytes}
    {count : Nat} {w : BitWriter}
    (hexact : ∀ index < count,
      let raw := gather (bitAt bytes) (w.offset + index * c.width) c.width
      c.kind.encode c.width (c.kind.decode c.width raw) = raw)
    {p : Nat} (hlow : w.offset ≤ p) (hhigh : p < w.offset + count * c.width) :
    bitAt ((c.elementsAt bytes w.offset count).foldl (writeValue c) w).bytes p =
      bitAt bytes p := by
  induction count generalizing w with
  | zero =>
    rw [Nat.zero_mul] at hhigh
    omega
  | succ count ih =>
    have hraw := hexact 0 (Nat.succ_pos count)
    simp only [Nat.zero_mul, Nat.add_zero] at hraw
    rw [Channel.elementsAt_succ, List.foldl_cons, writeValue, hraw]
    by_cases hfirst : p < w.offset + c.width
    · rw [(extends_writeValues c _ _).bits p hfirst, BitWriter.write, bitAt_write,
        Nat.min_eq_left hwidth, if_pos ⟨hlow, hfirst⟩, testBit_gather]
      have hindex : p - w.offset < c.width := by omega
      simp only [hindex, decide_true, Bool.true_and]
      congr 1
      omega
    · refine ih (w := w.write c.width _) (fun index hindex => ?_) (Nat.le_of_not_lt hfirst) ?_
      · have hnext := hexact (index + 1) (Nat.succ_lt_succ hindex)
        have hstart : w.offset + (index + 1) * c.width = w.offset + c.width + index * c.width := by
          rw [Nat.succ_mul]
          omega
        rw [hstart] at hnext
        exact hnext
      · rw [Nat.succ_mul] at hhigh
        simp only [BitWriter.write]
        omega

/-- A channel is written with the bits that it was read from; padding is written clear. -/
theorem bitAt_put {c : Channel} (hc : c.IsCodable) {bytes : Bytes} {w : BitWriter} (hw : w.Tight)
    (hexact : ∀ index < c.countAt bytes w.offset,
      c.kind.encode c.width (c.kind.decode c.width (c.rawAt bytes w.offset index)) =
        c.rawAt bytes w.offset index)
    {p : Nat} (hlow : w.offset ≤ p)
    (hhigh : p < w.offset + c.bitsOf (c.countAt bytes w.offset)) :
    bitAt (put w (c, c.valuesAt bytes w.offset)).bytes p = (!c.isVoid && bitAt bytes p) := by
  cases hvoid : c.isVoid with
  | true =>
    have hskip : put w (c, c.valuesAt bytes w.offset) = w.skip c.width := by
      rw [put, if_pos hvoid]
    rw [hskip, Bool.not_true, Bool.false_and, bytes_skip, bitAt_growTo]
    exact hw.clear p hlow
  | false =>
    have hwidth := hc.width hvoid
    rw [Channel.bitsOf, hvoid, if_neg (by simp), ← Nat.add_assoc] at hhigh
    rw [put, if_neg (by simp [hvoid]), Bool.not_false, Bool.true_and]
    unfold Channel.rawAt at hexact
    cases hdynamic : c.isDynamic with
    | false =>
      have hcount := Channel.countWidth_eq_zero hdynamic
      rw [hcount, Nat.add_zero] at hhigh hexact
      rw [if_neg (by simp), Channel.valuesAt, hcount, Nat.add_zero]
      exact bitAt_writeValues hwidth hexact hlow hhigh
    | true =>
      rw [if_pos rfl, Channel.length_valuesAt]
      by_cases hcounted : p < w.offset + c.countWidth
      · -- The count is the very number that the prefix was read as.
        have hcount : c.countAt bytes w.offset =
            gather (bitAt bytes) w.offset c.countWidth := by
          simp [Channel.countAt, hvoid, hdynamic]
        have hindex : p - w.offset < c.countWidth := by omega
        have hplace : w.offset + (p - w.offset) = p := by omega
        rw [(extends_writeValues c _ _).bits p hcounted, BitWriter.write, bitAt_write,
          Nat.min_eq_left hc.countWidth_le, if_pos ⟨hlow, hcounted⟩, hcount, testBit_gather]
        simp [hindex, hplace]
      · exact bitAt_writeValues (w := w.write c.countWidth (c.countAt bytes w.offset)) hwidth
          hexact (Nat.le_of_not_lt hcounted) hhigh

/-- What was read is written with the bits that carry it; all others are clear. -/
theorem bitAt_puts {channels : List Channel} (hchannels : ∀ c ∈ channels, c.IsCodable)
    {bytes : Bytes} {w : BitWriter} (hw : w.Tight)
    (hexact : Channel.Exact bytes channels w.offset) {p : Nat} (hlow : w.offset ≤ p) :
    bitAt ((Allotment.ofBytes bytes channels w.offset).foldl put w).bytes p =
      (Channel.carries bytes channels w.offset p && bitAt bytes p) := by
  induction channels generalizing w with
  | nil => exact hw.clear p hlow
  | cons c rest ih =>
    obtain ⟨hc, hrest⟩ := List.forall_mem_cons.mp hchannels
    obtain ⟨hexactFirst, hexactRest⟩ := hexact
    have hnext := offset_put w (c, c.valuesAt bytes w.offset)
    rw [Channel.length_valuesAt] at hnext
    rw [Allotment.ofBytes, List.foldl_cons, Channel.carries, ← hnext]
    rw [← hnext] at hexactRest
    by_cases hfirst : p < (put w (c, c.valuesAt bytes w.offset)).offset
    · rw [(extends_puts _ _).bits p hfirst, if_pos hfirst]
      rw [hnext] at hfirst
      rw [bitAt_put hc hw hexactFirst hlow hfirst]
      simp [hlow]
    · rw [if_neg hfirst]
      exact ih hrest (tight_put hw hc) hexactRest (Nat.le_of_not_lt hfirst)

/--
If no two channels share a name, then values that were read can be written again.  As long as
every raw value is the pattern of its value, the payload then takes as many bytes as the parser
went through, has the same counts and values as before, and is clear everywhere else.
-/
theorem serializeNamed_of_parse {channels : List Channel}
    (hchannels : ∀ c ∈ channels, c.IsCodable) (hkeys : Channel.DisjointKeys channels) {f : Frame}
    {values : NamedValues} (h : f.parse channels = .ok values)
    (hexact : Channel.Exact f.payload channels 0) (template : Frame) :
    ∃ payload consumed,
      readChannels channels {} ⟨f.payload, 0⟩ = .ok (values, ⟨f.payload, consumed⟩) ∧
        template.serializeNamed channels values = .ok { template with payload } ∧
        payload.size = bytesFor consumed ∧
        ∀ p, bitAt payload p = (Channel.carries f.payload channels 0 p && bitAt f.payload p) := by
  obtain ⟨next, hread, rfl⟩ := map_eq_ok_iff.mp h
  obtain ⟨hadmitted, -, rfl⟩ := (readChannels_eq_ok_iff hchannels (Nat.zero_le _)).mp hread
  have hfirst := Allotment.channels_ofBytes f.payload channels 0
  have hfresh : ∀ c ∈ channels, ∀ key, c.HasKey key →
      Bindings.get? (α := Double) {} key = none := fun _ _ _ _ => rfl
  have hsame := Allotment.ofNamed_bindAll hadmitted (by rwa [hfirst]) (by rwa [hfirst])
  rw [hfirst] at hsame
  have htight : ((Allotment.ofBytes f.payload channels 0).foldl put {}).Tight :=
    tight_puts tight_empty (codable_of_channels hchannels hfirst)
  refine ⟨_, _, hread, ?_, htight.size.trans ?_, fun p => ?_⟩
  · rw [Frame.serializeNamed, writeNamed_eq_ok_iff.mpr ⟨by rwa [hsame], rfl⟩, hsame]
    rfl
  · rw [offset_puts]
  · exact bitAt_puts hchannels tight_empty hexact (Nat.zero_le p)

end Conversion

open scoped HalfConversion in
/-- The set padding and the bits behind the last channel come back clear. -/
theorem serializeNamed_of_parse_set_padding :
    let channels := [Channel.dynamicArray .unsigned 8 "a" 3, Channel.padding 5,
      Channel.scalar .signed 4 "b"]
    let f := { Frame.message 1 1 0 with payload := #[30, 36, 252, 254, 1] }
    ∃ values payload consumed,
      f.parse channels = .ok values ∧ Channel.DisjointKeys channels ∧
        Channel.Exact f.payload channels 0 ∧
        readChannels channels {} ⟨f.payload, 0⟩ = .ok (values, ⟨f.payload, consumed⟩) ∧
        (Frame.message 2 3 1).serializeNamed channels values =
          .ok { Frame.message 2 3 1 with payload } ∧
        payload.size = bytesFor consumed ∧
        ∀ p, bitAt payload p = (Channel.carries f.payload channels 0 p && bitAt f.payload p) := by
  intro channels f
  have hcodable : ∀ c ∈ channels, c.IsCodable := by
    intro c hc
    simp only [channels, List.mem_cons, List.not_mem_nil, or_false] at hc
    rcases hc with rfl | rfl | rfl
    · exact Channel.isCodable_dynamicArray (by decide) (by decide) _ _
    · exact Channel.isCodable_padding 5
    · exact Channel.isCodable_scalar (by decide) _ _
  have hkeys : Channel.DisjointKeys channels := by
    simp only [channels, Channel.DisjointKeys, List.pairwise_cons, List.mem_cons,
      List.not_mem_nil, or_false, forall_eq_or_imp, forall_eq]
    refine ⟨⟨fun key _ h => ?_, fun key ha hb => ?_⟩, fun key h => ?_, by simp⟩
    · exact absurd h.1 (by decide)
    · obtain ⟨index, rfl⟩ := ha.2
      have hlength := congrArg String.length (show _ = "b" from hb.2)
      simp only [Channel.elementName, Channel.dynamicArray, String.length_append] at hlength
      have ha : "a".length = 1 := by decide
      have hb : "b".length = 1 := by decide
      have hbar : "_".length = 1 := by decide
      omega
    · exact absurd h.1 (by decide)
  have hexact : Channel.Exact f.payload channels 0 :=
    ⟨by decide +kernel, by decide +kernel, by decide +kernel, trivial⟩
  obtain ⟨values, hvalues⟩ : ∃ values, f.parse channels = .ok values := by
    have hparses : (f.parse channels).isOk = true := by decide +kernel
    cases hvalues : f.parse channels with
    | error e =>
      rw [hvalues] at hparses
      cases hparses
    | ok values => exact ⟨values, rfl⟩
  obtain ⟨payload, consumed, h⟩ :=
    serializeNamed_of_parse hcodable hkeys hvalues hexact (Frame.message 2 3 1)
  exact ⟨values, payload, consumed, hvalues, hkeys, hexact, h⟩

end Payload

end BusSchema
