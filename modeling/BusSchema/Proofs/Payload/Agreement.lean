import BusSchema.Proofs.Payload.Canonical

/-!
# Two ways of writing agree

Values in channel order can be bound to the names of their channels first and then be written by
name.  If there are enough of them and no two channels share a name, this comes to the same: the
same bytes, or the error of the first array that has too many elements (`serializeNamed_ofOrdered`).

Both ways are brought into one form, in which the values of each channel are given and only the
sizes of arrays are checked (`Payload.putWithin`).
-/

namespace BusSchema

namespace Channel

/-- The values suffice for the channel; an array takes its count and the elements that it counts. -/
def CoveredBy (c : Channel) (values : List Double) : Prop :=
  if c.isVoid then True
  else if c.isDynamic then
    ∃ count rest, values = count :: rest ∧ count.toUnsigned64 ≤ rest.length
  else values ≠ []

/-- The values suffice for all channels; there may be more of them. -/
def Supplied : List Channel → List Double → Prop
  | [], _ => True
  | c :: rest, values => c.CoveredBy values ∧ Supplied rest (c.takeOrdered values).2

theorem CoveredBy.fills {c : Channel} {values : List Double} (h : c.CoveredBy values) :
    c.Fills (c.takeOrdered values).1.length := by
  unfold CoveredBy at h
  unfold takeOrdered
  constructor
  · intro hvoid
    simp [hvoid]
  · intro hvoid hdynamic
    have hne : values ≠ [] := by simpa [hvoid, hdynamic] using h
    obtain ⟨value, rest, rfl⟩ := List.exists_cons_of_ne_nil hne
    simp [hvoid, hdynamic]

end Channel

theorem Allotment.fills_ofOrdered {channels : List Channel} {values : List Double}
    (h : Channel.Supplied channels values) :
    ∀ entry ∈ ofOrdered channels values, entry.1.Fills entry.2.length := by
  induction channels generalizing values with
  | nil => exact List.forall_mem_nil _
  | cons c rest ih =>
    obtain ⟨hcovered, hrest⟩ := h
    exact List.forall_mem_cons.mpr ⟨hcovered.fills, ih hrest⟩

namespace Payload

/-- Values that channels take in order are the ones that they find under their names. -/
theorem ofNamed_ofOrdered {channels : List Channel} {values : List Double}
    (hkeys : Channel.DisjointKeys channels) (h : Channel.Supplied channels values) :
    Allotment.ofNamed channels (Bindings.ofList (Allotment.ofOrdered channels values).named) =
      Allotment.ofOrdered channels values := by
  have hchannels := channels_ofOrdered channels values
  have hfresh : ∀ c ∈ channels, ∀ key, c.HasKey key → Bindings.get? (α := Double) {} key = none :=
    fun _ _ _ _ => rfl
  have hfound := Allotment.ofNamed_bindAll_of_fills (Allotment.fills_ofOrdered h)
    (by rwa [hchannels]) (by rwa [hchannels])
  rwa [hchannels] at hfound

theorem Supply.take_of_le (supply : Supply) {count : Nat} (h : count ≤ supply.values.length) :
    supply.take count =
      .ok (supply.values.take count, ⟨supply.values.drop count, supply.used + count⟩) := by
  rw [Supply.take, if_neg (Nat.not_lt.mpr h)]

section Conversion

variable [HalfConversion]

/-- Appends a channel with its values, unless they are more elements than its array can have. -/
def putWithin (w : BitWriter) (entry : Channel × List Double) : Except FrameError BitWriter :=
  if entry.1.isVoid = false ∧ entry.1.isDynamic = true ∧ entry.1.maxCount < entry.2.length then
    .error (.arrayTooLong entry.1.name entry.1.maxCount entry.2.length)
  else .ok (put w entry)

theorem putWithin_of_isVoid {c : Channel} (hvoid : c.isVoid = true) (w : BitWriter)
    (elements : List Double) : putWithin w (c, elements) = .ok (w.skip c.width) := by
  simp [putWithin, put, hvoid]

theorem putWithin_of_isDynamic {c : Channel} (hvoid : c.isVoid = false)
    (hdynamic : c.isDynamic = true) (w : BitWriter) (elements : List Double) :
    putWithin w (c, elements) = writeElements c w elements := by
  simp [putWithin, put, writeElements, hvoid, hdynamic]

theorem putWithin_singleton {c : Channel} (hvoid : c.isVoid = false)
    (hdynamic : c.isDynamic = false) (w : BitWriter) (value : Double) :
    putWithin w (c, [value]) = .ok (writeValue c w value) := by
  simp [putWithin, put, hvoid, hdynamic]

theorem putWithin_of_admits {c : Channel} {elements : List Double}
    (h : c.Admits elements.length) (w : BitWriter) :
    putWithin w (c, elements) = .ok (put w (c, elements)) := by
  unfold Channel.Admits at h
  refine if_neg ?_
  rintro ⟨hvoid, hdynamic, hmany⟩
  simp only [hvoid, hdynamic, Bool.false_eq_true, if_false, if_true] at h
  exact Nat.not_lt.mpr h hmany

/-- Only an array can have too many values. -/
theorem putWithin_of_not_admits {c : Channel} {elements : List Double}
    (hfills : c.Fills elements.length) (h : ¬c.Admits elements.length) (w : BitWriter) :
    c.maxCount < elements.length ∧
      putWithin w (c, elements) =
        .error (.arrayTooLong c.name c.maxCount elements.length) := by
  unfold Channel.Admits at h
  cases hvoid : c.isVoid with
  | true => exact absurd (hfills.void hvoid) (by simpa [hvoid] using h)
  | false =>
    cases hdynamic : c.isDynamic with
    | false => exact absurd (hfills.scalar hvoid hdynamic) (by simpa [hvoid, hdynamic] using h)
    | true =>
      have hmany : c.maxCount < elements.length := by simpa [hvoid, hdynamic] using h
      exact ⟨hmany, if_pos ⟨hvoid, hdynamic, hmany⟩⟩

theorem writeNamedChannel_eq {values : NamedValues} {c : Channel}
    (h : c.Fills (c.valuesIn values).length) (w : BitWriter) :
    writeNamedChannel values w c = putWithin w (c, c.valuesIn values) := by
  unfold writeNamedChannel
  cases hvoid : c.isVoid with
  | true => simp [putWithin_of_isVoid hvoid]
  | false =>
    cases hdynamic : c.isDynamic with
    | true => simp [putWithin_of_isDynamic hvoid hdynamic, Channel.valuesIn, hvoid, hdynamic]
    | false =>
      have hone := h.scalar hvoid hdynamic
      simp only [Channel.valuesIn, hvoid, hdynamic, Bool.false_eq_true, if_false] at hone ⊢
      cases hvalue : values.get? c.name with
      | none => simp [hvalue] at hone
      | some value => exact (putWithin_singleton hvoid hdynamic w value).symm

theorem foldlM_writeNamedChannel {values : NamedValues} {channels : List Channel}
    (h : ∀ c ∈ channels, c.Fills (c.valuesIn values).length) (w : BitWriter) :
    channels.foldlM (writeNamedChannel values) w =
      (Allotment.ofNamed channels values).foldlM putWithin w := by
  induction channels generalizing w with
  | nil => rfl
  | cons c rest ih =>
    obtain ⟨hfirst, hrest⟩ := List.forall_mem_cons.mp h
    rw [Allotment.ofNamed, List.map_cons, List.foldlM_cons, List.foldlM_cons,
      writeNamedChannel_eq hfirst]
    exact bind_congr (ih hrest)

/-- A channel whose values are there is only refused for the size of its array. -/
theorem writeOrderedChannel_eq {c : Channel} {supply : Supply} (h : c.CoveredBy supply.values)
    (w : BitWriter) :
    ∃ used, writeOrderedChannel (w, supply) c =
      (putWithin w (c, (c.takeOrdered supply.values).1)).map fun next =>
        (next, ⟨(c.takeOrdered supply.values).2, used⟩) := by
  obtain ⟨values, used⟩ := supply
  unfold Channel.CoveredBy at h
  unfold writeOrderedChannel Channel.takeOrdered
  cases hvoid : c.isVoid with
  | true => exact ⟨used, by simp [putWithin_of_isVoid hvoid]; rfl⟩
  | false =>
    cases hdynamic : c.isDynamic with
    | true =>
      simp only [hvoid, hdynamic, Bool.false_eq_true, if_false, if_true] at h
      obtain ⟨count, rest, rfl, hcount⟩ := h
      have hnext : Supply.next ⟨count :: rest, used⟩ = .ok (count, ⟨rest, used + 1⟩) := rfl
      have htake := Supply.take_of_le ⟨rest, used + 1⟩ hcount
      refine ⟨used + 1 + count.toUnsigned64, ?_⟩
      simp only [putWithin_of_isDynamic hvoid hdynamic, hnext, ok_bind, htake, Bool.false_eq_true,
        if_false, if_true, List.head?_cons, Option.elim_some, List.tail_cons]
      cases writeElements c w (rest.take count.toUnsigned64) <;> rfl
    | false =>
      simp only [hvoid, hdynamic, Bool.false_eq_true, if_false] at h
      obtain ⟨value, rest, rfl⟩ := List.exists_cons_of_ne_nil h
      exact ⟨used + 1, by simp [putWithin_singleton hvoid hdynamic]; rfl⟩

theorem foldlM_writeOrderedChannel {channels : List Channel} (supply : Supply)
    (h : Channel.Supplied channels supply.values) (w : BitWriter) :
    (channels.foldlM writeOrderedChannel (w, supply)).map Prod.fst =
      (Allotment.ofOrdered channels supply.values).foldlM putWithin w := by
  induction channels generalizing w supply with
  | nil => rfl
  | cons c rest ih =>
    obtain ⟨hcovered, hrest⟩ := h
    obtain ⟨used, hfirst⟩ := writeOrderedChannel_eq hcovered w
    rw [Allotment.ofOrdered, List.foldlM_cons, List.foldlM_cons, hfirst]
    cases putWithin w (c, (c.takeOrdered supply.values).1) with
    | error e => rfl
    | ok next => exact ih ⟨_, used⟩ hrest next

/-- Values are all written, or refused for the first array that has too many elements. -/
theorem foldlM_putWithin {allotment : Allotment}
    (h : ∀ entry ∈ allotment, entry.1.Fills entry.2.length) (w : BitWriter) :
    (allotment.Admitted ∧ allotment.foldlM putWithin w = .ok (allotment.foldl put w)) ∨
      ∃ front c elements back, allotment = front ++ (c, elements) :: back ∧
        Allotment.Admitted front ∧ c.maxCount < elements.length ∧
        allotment.foldlM putWithin w =
          .error (.arrayTooLong c.name c.maxCount elements.length) := by
  induction allotment generalizing w with
  | nil => exact Or.inl ⟨List.forall_mem_nil _, rfl⟩
  | cons entry rest ih =>
    obtain ⟨c, elements⟩ := entry
    obtain ⟨hfirst, hrest⟩ := List.forall_mem_cons.mp h
    rw [List.foldlM_cons]
    by_cases hadmits : c.Admits elements.length
    · rw [putWithin_of_admits hadmits, ok_bind]
      rcases ih hrest (put w (c, elements)) with ⟨hadmitted, hwritten⟩ | hrefused
      · exact Or.inl ⟨Allotment.admitted_cons_iff.mpr ⟨hadmits, hadmitted⟩, hwritten⟩
      · obtain ⟨front, d, others, back, rfl, hfront, hmany, herror⟩ := hrefused
        exact Or.inr ⟨(c, elements) :: front, d, others, back, rfl,
          Allotment.admitted_cons_iff.mpr ⟨hadmits, hfront⟩, hmany, herror⟩
    · obtain ⟨hmany, herror⟩ := putWithin_of_not_admits hfirst hadmits w
      rw [herror]
      exact Or.inr ⟨[], c, elements, rest, rfl, List.forall_mem_nil _, hmany, rfl⟩

variable {channels : List Channel} {values : List Double}

theorem writeOrdered_eq (h : Channel.Supplied channels values) :
    writeOrdered channels values =
      ((Allotment.ofOrdered channels values).foldlM putWithin {}).map BitWriter.bytes := by
  rw [← foldlM_writeOrderedChannel ⟨values, 0⟩ h, writeOrdered]
  cases channels.foldlM writeOrderedChannel ({}, ⟨values, 0⟩) <;> rfl

theorem writeNamed_eq {named : NamedValues} {allotment : Allotment}
    (hfound : Allotment.ofNamed channels named = allotment)
    (hfills : ∀ entry ∈ allotment, entry.1.Fills entry.2.length) :
    writeNamed channels named = (allotment.foldlM putWithin {}).map BitWriter.bytes := by
  subst hfound
  have hvalues : ∀ c ∈ channels, c.Fills (c.valuesIn named).length := by
    intro c hc
    exact hfills (c, c.valuesIn named) (List.mem_map_of_mem hc)
  rw [writeNamed, foldlM_writeNamedChannel hvalues]

/--
Values in channel order that suffice for all channels are serialised alike by name and in order, if
no two channels share a name.  Either both ways give the same payload, or both refuse the first
array that has too many elements.  A count that is not a whole number stands for what it is cut to.
-/
theorem serializeNamed_ofOrdered (hkeys : Channel.DisjointKeys channels)
    (hsupplied : Channel.Supplied channels values) (template : Frame) :
    let allotment := Allotment.ofOrdered channels values
    let named := Bindings.ofList allotment.named
    template.serializeNamed channels named = template.serializeOrdered channels values ∧
      ((allotment.Admitted ∧ ∃ payload,
          template.serializeOrdered channels values = .ok { template with payload }) ∨
        ∃ front c elements back, allotment = front ++ (c, elements) :: back ∧
          Allotment.Admitted front ∧ c.maxCount < elements.length ∧
          template.serializeOrdered channels values =
            .error (.arrayTooLong c.name c.maxCount elements.length)) := by
  intro allotment named
  have hfills := Allotment.fills_ofOrdered hsupplied
  have hnamed := writeNamed_eq (ofNamed_ofOrdered hkeys hsupplied) hfills
  have hordered := writeOrdered_eq hsupplied
  refine ⟨by rw [Frame.serializeNamed, Frame.serializeOrdered, hnamed, hordered], ?_⟩
  rw [Frame.serializeOrdered, hordered]
  rcases foldlM_putWithin hfills {} with
    ⟨hadmitted, hwritten⟩ | ⟨front, c, elements, back, hsplit, hfront, hmany, herror⟩
  · rw [hwritten]
    exact Or.inl ⟨hadmitted, _, rfl⟩
  · rw [herror]
    exact Or.inr ⟨front, c, elements, back, hsplit, hfront, hmany, rfl⟩

end Conversion

open scoped HalfConversion in
/-- An array with one element too many, behind a scalar and padding. -/
theorem serializeNamed_ofOrdered_too_long :
    let channels := [Channel.scalar .signed 4 "b", Channel.padding 5,
      Channel.dynamicArray .unsigned 8 "a" 3]
    let values := Double.ofInt (-3) :: [4, 6, 7, 8, 9].map Double.ofNat
    let template := Frame.message 1 1 0
    Channel.DisjointKeys channels ∧ Channel.Supplied channels values ∧
      template.serializeNamed channels
          (Bindings.ofList (Allotment.ofOrdered channels values).named) =
        .error (.arrayTooLong "a" 3 4) := by
  intro channels values template
  have hkeys : Channel.DisjointKeys channels := by
    simp only [channels, Channel.DisjointKeys, List.pairwise_cons, List.mem_cons,
      List.not_mem_nil, or_false, forall_eq_or_imp, forall_eq]
    refine ⟨⟨fun key _ h => ?_, fun key hb ha => ?_⟩, fun key h => ?_, by simp⟩
    · exact absurd h.1 (by decide)
    · obtain ⟨index, rfl⟩ := ha.2
      have hlonger := Channel.length_lt_elementName (.dynamicArray .unsigned 8 "a" 3) index
      rw [show _ = "b" from hb.2] at hlonger
      exact absurd hlonger (by decide)
    · exact absurd h.1 (by decide)
  have hsupplied : Channel.Supplied channels values :=
    ⟨List.cons_ne_nil _ _, trivial, ⟨_, _, rfl, by decide +kernel⟩, trivial⟩
  refine ⟨hkeys, hsupplied, (serializeNamed_ofOrdered hkeys hsupplied template).1.trans ?_⟩
  decide +kernel

end Payload

end BusSchema
