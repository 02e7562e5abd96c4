import BusSchema.Proofs.Payload.Reading

/-!
# What writing a payload comes to

Both ways of writing first decide which values each channel takes, by name or in order, and then
write them: `Payload.put` writes one channel with its values, and an `Allotment` is written channel
by channel.  `Allotment.ofBytes_of_agrees` says what a reader finds in the bytes afterwards: the
same channels, each with its values as they come out of the codec.
-/

namespace BusSchema

open Bits BitWriter

variable [HalfConversion]

namespace Channel

/-- A value as it comes out of the codec of the channel. -/
def transmit (c : Channel) (value : Double) : Double :=
  c.kind.decode c.width (c.kind.encode c.width value)

/--
The values that the channel takes from values in channel order, and those that are left.  An array
takes its count first.
-/
def takeOrdered (c : Channel) (values : List Double) : List Double × List Double :=
  if c.isVoid then ([], values)
  else if c.isDynamic then
    let count := values.head?.elim 0 Double.toUnsigned64
    (values.tail.take count, values.tail.drop count)
  else (values.take 1, values.drop 1)

end Channel

namespace Allotment

/-- The values that channels take from values by name. -/
def ofNamed (channels : List Channel) (values : NamedValues) : Allotment :=
  channels.map fun c => (c, c.valuesIn values)

/-- The values that channels take from values in channel order. -/
def ofOrdered : List Channel → List Double → Allotment
  | [], _ => []
  | c :: rest, values =>
    (c, (c.takeOrdered values).1) :: ofOrdered rest (c.takeOrdered values).2

/-- The values as they come out of the codec. -/
def transmit (allotment : Allotment) : Allotment :=
  allotment.map fun entry => (entry.1, entry.2.map entry.1.transmit)

end Allotment

namespace Payload

/-- Appends a channel with its values. -/
def put (w : BitWriter) (entry : Channel × List Double) : BitWriter :=
  if entry.1.isVoid then w.skip entry.1.width
  else
    entry.2.foldl (writeValue entry.1)
      (if entry.1.isDynamic then w.write entry.1.countWidth entry.2.length else w)

/-! ## Both ways of writing put allotments -/

theorem writeNamedChannel_eq_ok_iff {values : NamedValues} {w next : BitWriter} {c : Channel} :
    writeNamedChannel values w c = .ok next ↔
      c.Admits (c.valuesIn values).length ∧ next = put w (c, c.valuesIn values) := by
  unfold writeNamedChannel Channel.Admits Channel.valuesIn put
  cases c.isVoid with
  | true => simp [eq_comm]
  | false =>
    cases c.isDynamic with
    | true =>
      simp only [Bool.false_eq_true, if_false, if_true, writeElements]
      by_cases hmost : c.maxCount < (boundElements c values).length
      · simp [hmost, Nat.not_le.mpr hmost]
      · simp [hmost, Nat.le_of_not_lt hmost, eq_comm]
    | false =>
      cases values.get? c.name with
      | none => simp
      | some value => simp [eq_comm]

theorem foldlM_writeNamedChannel_eq_ok_iff {values : NamedValues} {channels : List Channel}
    {w next : BitWriter} :
    channels.foldlM (writeNamedChannel values) w = .ok next ↔
      (Allotment.ofNamed channels values).Admitted ∧
        next = (Allotment.ofNamed channels values).foldl put w := by
  induction channels generalizing w with
  | nil =>
    rw [List.foldlM_nil]
    exact ⟨fun h => ⟨List.forall_mem_nil _, (Except.ok.inj h).symm⟩, fun h => by rw [h.2]; rfl⟩
  | cons c rest ih =>
    rw [List.foldlM_cons, bind_eq_ok_iff]
    constructor
    · rintro ⟨w', hfirst, hrest⟩
      obtain ⟨hadmits, rfl⟩ := writeNamedChannel_eq_ok_iff.mp hfirst
      obtain ⟨hadmitted, rfl⟩ := ih.mp hrest
      exact ⟨Allotment.admitted_cons_iff.mpr ⟨hadmits, hadmitted⟩, rfl⟩
    · rintro ⟨hadmitted, rfl⟩
      obtain ⟨hadmits, hrest⟩ := Allotment.admitted_cons_iff.mp hadmitted
      exact ⟨_, writeNamedChannel_eq_ok_iff.mpr ⟨hadmits, rfl⟩, ih.mpr ⟨hrest, rfl⟩⟩

theorem writeNamed_eq_ok_iff {values : NamedValues} {channels : List Channel} {payload : Bytes} :
    writeNamed channels values = .ok payload ↔
      (Allotment.ofNamed channels values).Admitted ∧
        payload = ((Allotment.ofNamed channels values).foldl put {}).bytes := by
  unfold writeNamed
  rw [map_eq_ok_iff]
  constructor
  · rintro ⟨w, hfold, rfl⟩
    obtain ⟨hadmitted, rfl⟩ := foldlM_writeNamedChannel_eq_ok_iff.mp hfold
    exact ⟨hadmitted, rfl⟩
  · rintro ⟨hadmitted, rfl⟩
    exact ⟨_, foldlM_writeNamedChannel_eq_ok_iff.mpr ⟨hadmitted, rfl⟩, rfl⟩

theorem put_of_writeOrderedChannel {c : Channel} {w : BitWriter} {supply : Supply}
    {next : BitWriter × Supply} (h : writeOrderedChannel (w, supply) c = .ok next) :
    c.Admits (c.takeOrdered supply.values).1.length ∧
      next.1 = put w (c, (c.takeOrdered supply.values).1) ∧
        next.2.values = (c.takeOrdered supply.values).2 := by
  obtain ⟨values, used⟩ := supply
  unfold writeOrderedChannel at h
  unfold Channel.Admits Channel.takeOrdered put
  cases hvoid : c.isVoid with
  | true =>
    rw [hvoid] at h
    cases h
    exact ⟨rfl, rfl, rfl⟩
  | false =>
    cases values with
    | nil =>
      -- Without values there is neither a value nor a count to write.
      cases hdynamic : c.isDynamic <;> rw [hvoid, hdynamic] at h <;> cases h
    | cons value rest =>
      cases hdynamic : c.isDynamic with
      | false =>
        rw [hvoid, hdynamic] at h
        cases h
        exact ⟨rfl, rfl, rfl⟩
      | true =>
        simp only [hvoid, hdynamic, Bool.false_eq_true, if_false, if_true, bind_eq_ok_iff] at h
        obtain ⟨⟨count, afterCount⟩, hcount, ⟨elements, left⟩, htake, w', hwrite, hnext⟩ := h
        cases hcount
        simp only [List.head?_cons, Option.elim_some, List.tail_cons, Bool.false_eq_true, if_false,
          if_true]
        generalize value.toUnsigned64 = count at htake ⊢
        unfold Supply.take at htake
        split at htake
        · cases htake
        · cases htake
          unfold writeElements at hwrite
          split at hwrite
          · cases hwrite
          · next hmost =>
            cases hwrite
            cases hnext
            exact ⟨Nat.le_of_not_lt hmost, rfl, rfl⟩

theorem foldl_put_of_writeOrdered {channels : List Channel} {w : BitWriter} {supply : Supply}
    {next : BitWriter × Supply} (h : channels.foldlM writeOrderedChannel (w, supply) = .ok next) :
    (Allotment.ofOrdered channels supply.values).Admitted ∧
      next.1 = (Allotment.ofOrdered channels supply.values).foldl put w := by
  induction channels generalizing w supply with
  | nil =>
    rw [List.foldlM_nil] at h
    cases h
    exact ⟨List.forall_mem_nil _, rfl⟩
  | cons c rest ih =>
    obtain ⟨⟨w', supply'⟩, hfirst, hrest⟩ := bind_eq_ok_iff.mp (by rwa [List.foldlM_cons] at h)
    obtain ⟨hadmits, rfl, hleft⟩ := put_of_writeOrderedChannel hfirst
    obtain ⟨hadmitted, hnext⟩ := ih hrest
    rw [hleft] at hadmitted hnext
    exact ⟨Allotment.admitted_cons_iff.mpr ⟨hadmits, hadmitted⟩, hnext⟩

theorem put_of_writeOrdered {channels : List Channel} {values : List Double} {payload : Bytes}
    (h : writeOrdered channels values = .ok payload) :
    (Allotment.ofOrdered channels values).Admitted ∧
      payload = ((Allotment.ofOrdered channels values).foldl put {}).bytes := by
  obtain ⟨next, hfold, rfl⟩ := map_eq_ok_iff.mp h
  obtain ⟨hadmitted, hnext⟩ := foldl_put_of_writeOrdered hfold
  exact ⟨hadmitted, congrArg BitWriter.bytes hnext⟩

end Payload

namespace Allotment

omit [HalfConversion] in
/-- What channels take from values by name is a part of those values. -/
theorem get?_of_mem_named (channels : List Channel) (values : NamedValues) :
    ∀ pair ∈ (ofNamed channels values).named, values.get? pair.1 = some pair.2 := by
  intro pair hpair
  obtain ⟨entry, hentry, hpair⟩ := List.mem_flatMap.mp hpair
  obtain ⟨c, -, rfl⟩ := List.mem_map.mp hentry
  exact Channel.get?_of_mem_named hpair

theorem transmit_ofNamed {channels : List Channel} {values : NamedValues}
    (h : ∀ c ∈ channels, ∀ value ∈ c.valuesIn values, c.transmit value = value) :
    (ofNamed channels values).transmit = ofNamed channels values := by
  rw [transmit, ofNamed, List.map_map]
  apply List.map_congr_left
  intro c hc
  have hsame := List.map_congr_left (h c hc)
  rw [List.map_id'] at hsame
  exact congrArg (c, ·) hsame

end Allotment

end BusSchema
