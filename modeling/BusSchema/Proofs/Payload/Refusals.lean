import BusSchema.Proofs.Payload.Agreement
import BusSchema.Proofs.Payload.Counts

/-!
# Which values are refused

Values are written channel by channel, and the first channel that does not find its values decides
(`Payload.serialize_eq_error_iff`).  By name, a scalar needs a value of its name, and an array must
not have more elements than it can carry.  In channel order, a scalar, a count and as many elements
as the count says have to be there, and then the count must not be too large.  Padding needs nothing,
also where it is declared as an array (`Payload.serialize_array_of_padding`).
-/

namespace BusSchema

open BitWriter

namespace Channel

/-- The channel finds its values under its names. -/
def AcceptsNamed (c : Channel) (values : NamedValues) : Prop :=
  if c.isVoid then True
  else if c.isDynamic then ∃ count, c.IsRun values count ∧ count ≤ c.maxCount
  else (values.get? c.name).isSome

/-- Why a channel does not find its values under its names. -/
inductive RefusesNamed (c : Channel) (values : NamedValues) : FrameError → Prop
  | missing (hvoid : c.isVoid = false) (hscalar : c.isDynamic = false)
      (hnone : values.get? c.name = none) : RefusesNamed c values (.missingValue c.name)
  | long {count : Nat} (hvoid : c.isVoid = false) (hdynamic : c.isDynamic = true)
      (hrun : c.IsRun values count) (hmost : c.maxCount < count) :
    RefusesNamed c values (.arrayTooLong c.name c.maxCount count)

/-- The channel finds its values at the front of values in channel order. -/
def AcceptsOrdered (c : Channel) (values : List Double) : Prop :=
  if c.isVoid then True
  else if c.isDynamic then
    ∃ count rest, values = count :: rest ∧ count.toUnsigned64 ≤ rest.length ∧
      count.toUnsigned64 ≤ c.maxCount
  else values ≠ []

/-- Why a channel does not find its values at the front of values in channel order. -/
inductive RefusesOrdered (c : Channel) (values : List Double) (supplied : Nat) : FrameError → Prop
  | short (hshort : ¬c.CoveredBy values) : RefusesOrdered c values supplied (.notEnoughValues supplied)
  | long {count : Double} {rest : List Double} (hvoid : c.isVoid = false)
      (hdynamic : c.isDynamic = true) (hvalues : values = count :: rest)
      (hcovered : count.toUnsigned64 ≤ rest.length) (hmost : c.maxCount < count.toUnsigned64) :
    RefusesOrdered c values supplied (.arrayTooLong c.name c.maxCount count.toUnsigned64)

/-- Each channel finds its values behind those of the channels before it. -/
def AllAcceptOrdered : List Channel → List Double → Prop
  | [], _ => True
  | c :: rest, values => c.AcceptsOrdered values ∧ AllAcceptOrdered rest (c.takeOrdered values).2

end Channel

namespace Payload

/-! ## Values by name -/

section Named

variable {values other : NamedValues} {c : Channel} {w : BitWriter} {e : FrameError}

theorem admits_valuesIn_iff : c.Admits (c.valuesIn values).length ↔ c.AcceptsNamed values := by
  unfold Channel.Admits Channel.valuesIn Channel.AcceptsNamed
  cases c.isVoid with
  | true => simp
  | false =>
    cases c.isDynamic with
    | true => simp [Channel.isRun_iff]
    | false => cases values.get? c.name <;> simp

variable [HalfConversion]

theorem writeNamedChannel_eq_error_iff :
    writeNamedChannel values w c = .error e ↔ c.RefusesNamed values e := by
  unfold writeNamedChannel
  constructor
  · intro h
    cases hvoid : c.isVoid with
    | true =>
      rw [hvoid] at h
      cases h
    | false =>
      cases hdynamic : c.isDynamic with
      | true =>
        simp only [hvoid, hdynamic, Bool.false_eq_true, if_false, if_true, writeElements] at h
        split at h
        · next hmost =>
          cases h
          exact .long hvoid hdynamic (c.isRun_length values) hmost
        · cases h
      | false =>
        simp only [hvoid, hdynamic, Bool.false_eq_true, if_false] at h
        split at h
        · cases h
        · next hnone =>
          cases h
          exact .missing hvoid hdynamic hnone
  · rintro (⟨hvoid, hdynamic, hnone⟩ | ⟨hvoid, hdynamic, hrun, hmost⟩)
    · simp [hvoid, hdynamic, hnone]
    · rw [Channel.isRun_iff] at hrun
      subst hrun
      simp [hvoid, hdynamic, writeElements, hmost]

theorem exists_foldlM_writeNamedChannel_iff {channels : List Channel} :
    (∃ next, channels.foldlM (writeNamedChannel values) w = .ok next) ↔
      ∀ c ∈ channels, c.AcceptsNamed values := by
  simp only [foldlM_writeNamedChannel_eq_ok_iff, exists_and_left, exists_eq, and_true,
    Allotment.Admitted, Allotment.ofNamed, List.forall_mem_map, admits_valuesIn_iff]

theorem writeNamedChannel_congr (h : c.valuesIn other = c.valuesIn values) :
    writeNamedChannel other w c = writeNamedChannel values w c := by
  unfold Channel.valuesIn at h
  unfold writeNamedChannel
  cases hvoid : c.isVoid with
  | true => rfl
  | false =>
    cases hdynamic : c.isDynamic with
    | true =>
      simp only [hvoid, hdynamic, Bool.false_eq_true, if_false, if_true] at h ⊢
      rw [h]
    | false =>
      simp only [hvoid, hdynamic, Bool.false_eq_true, if_false] at h ⊢
      have hvalue : other.get? c.name = values.get? c.name := by
        simpa using congrArg List.head? h
      rw [hvalue]

/-- What no channel looks up makes no difference. -/
theorem writeNamed_congr {channels : List Channel}
    (h : ∀ c ∈ channels, ∀ key, c.LooksUp values key → other.get? key = values.get? key) :
    writeNamed channels other = writeNamed channels values := by
  have hfold : ∀ w : BitWriter, channels.foldlM (writeNamedChannel other) w =
      channels.foldlM (writeNamedChannel values) w := by
    induction channels with
    | nil => exact fun _ => rfl
    | cons c rest ih =>
      obtain ⟨hc, hrest⟩ := List.forall_mem_cons.mp h
      intro w
      rw [List.foldlM_cons, List.foldlM_cons,
        writeNamedChannel_congr (Channel.valuesIn_eq_of_looksUp hc)]
      exact bind_congr (ih hrest)
  rw [writeNamed, writeNamed, hfold]

theorem writeNamed_eq_error_iff {channels : List Channel} :
    writeNamed channels values = .error e ↔
      ∃ front c back, channels = front ++ c :: back ∧ (∀ d ∈ front, d.AcceptsNamed values) ∧
        c.RefusesNamed values e := by
  rw [writeNamed, map_eq_error_iff, foldlM_eq_error_iff]
  simp only [writeNamedChannel_eq_error_iff]
  constructor
  · rintro ⟨front, c, back, w, hchannels, hfront, hrefused⟩
    exact ⟨front, c, back, hchannels, exists_foldlM_writeNamedChannel_iff.mp ⟨w, hfront⟩, hrefused⟩
  · rintro ⟨front, c, back, hchannels, hfront, hrefused⟩
    obtain ⟨w, hw⟩ := (exists_foldlM_writeNamedChannel_iff (w := {})).mpr hfront
    exact ⟨front, c, back, w, hchannels, hw, hrefused⟩

end Named

/-! ## Values in channel order -/

section Ordered

variable [HalfConversion] {c : Channel} {w : BitWriter} {e : FrameError} {supply : Supply}
  {next : BitWriter × Supply}

/-- What is left of a supply when a channel has taken its values. -/
structure Leaves (c : Channel) (supply left : Supply) : Prop where
  values : left.values = (c.takeOrdered supply.values).2
  /-- All values are either taken or left. -/
  supplied : left.used + left.values.length = supply.used + supply.values.length

theorem writeOrderedChannel_of_isVoid (hvoid : c.isVoid = true) :
    writeOrderedChannel (w, supply) c = .ok (w.skip c.width, supply) := by
  simp [writeOrderedChannel, hvoid]
  rfl

theorem writeOrderedChannel_nil (hvoid : c.isVoid = false) (used : Nat) :
    writeOrderedChannel (w, ⟨[], used⟩) c = .error (.notEnoughValues used) := by
  unfold writeOrderedChannel
  rw [hvoid]
  cases c.isDynamic <;> rfl

theorem writeOrderedChannel_scalar (hvoid : c.isVoid = false) (hdynamic : c.isDynamic = false)
    (value : Double) (rest : List Double) (used : Nat) :
    writeOrderedChannel (w, ⟨value :: rest, used⟩) c =
      .ok (writeValue c w value, ⟨rest, used + 1⟩) := by
  unfold writeOrderedChannel
  rw [hvoid, hdynamic]
  rfl

/-- An array is refused for missing elements before it is refused for too many of them. -/
theorem writeOrderedChannel_array (hvoid : c.isVoid = false) (hdynamic : c.isDynamic = true)
    (count : Double) (rest : List Double) (used : Nat) :
    writeOrderedChannel (w, ⟨count :: rest, used⟩) c =
      if rest.length < count.toUnsigned64 then .error (.notEnoughValues (used + 1 + rest.length))
      else if c.maxCount < count.toUnsigned64 then
        .error (.arrayTooLong c.name c.maxCount count.toUnsigned64)
      else .ok (put w (c, rest.take count.toUnsigned64),
        ⟨rest.drop count.toUnsigned64, used + 1 + count.toUnsigned64⟩) := by
  unfold writeOrderedChannel
  rw [hvoid, hdynamic]
  have hnext : Supply.next ⟨count :: rest, used⟩ = .ok (count, ⟨rest, used + 1⟩) := rfl
  simp only [Bool.false_eq_true, if_false, if_true, hnext, ok_bind]
  generalize count.toUnsigned64 = most
  by_cases hshort : rest.length < most
  · rw [if_pos hshort, Supply.take, if_pos hshort]
    rfl
  · have hlength : (rest.take most).length = most :=
      List.length_take_of_le (Nat.le_of_not_lt hshort)
    rw [if_neg hshort, Supply.take_of_le _ (Nat.le_of_not_lt hshort), ok_bind, writeElements,
      hlength]
    split
    · rfl
    · simp [put, hvoid, hdynamic, hlength]

theorem leaves_of_writeOrderedChannel (h : writeOrderedChannel (w, supply) c = .ok next) :
    c.AcceptsOrdered supply.values ∧ Leaves c supply next.2 := by
  obtain ⟨values, used⟩ := supply
  unfold Channel.AcceptsOrdered
  cases hvoid : c.isVoid with
  | true =>
    rw [writeOrderedChannel_of_isVoid hvoid] at h
    cases h
    exact ⟨trivial, by simp [Channel.takeOrdered, hvoid], rfl⟩
  | false =>
    cases values with
    | nil =>
      rw [writeOrderedChannel_nil hvoid] at h
      cases h
    | cons value rest =>
      cases hdynamic : c.isDynamic with
      | false =>
        rw [writeOrderedChannel_scalar hvoid hdynamic] at h
        cases h
        refine ⟨List.cons_ne_nil _ _, by simp [Channel.takeOrdered, hvoid, hdynamic], ?_⟩
        simp only [List.length_cons]
        omega
      | true =>
        rw [writeOrderedChannel_array hvoid hdynamic] at h
        split_ifs at h with hshort hmost
        cases h
        refine ⟨⟨value, rest, rfl, Nat.le_of_not_lt hshort, Nat.le_of_not_lt hmost⟩, ?_, ?_⟩
        · simp [Channel.takeOrdered, hvoid, hdynamic]
        · simp only [List.length_cons, List.length_drop]
          omega

theorem exists_writeOrderedChannel (h : c.AcceptsOrdered supply.values) (w : BitWriter) :
    ∃ next, writeOrderedChannel (w, supply) c = .ok next := by
  obtain ⟨values, used⟩ := supply
  unfold Channel.AcceptsOrdered at h
  cases hvoid : c.isVoid with
  | true => exact ⟨_, writeOrderedChannel_of_isVoid hvoid⟩
  | false =>
    cases hdynamic : c.isDynamic with
    | false =>
      simp only [hvoid, hdynamic, Bool.false_eq_true, if_false] at h
      obtain ⟨value, rest, rfl⟩ := List.exists_cons_of_ne_nil h
      exact ⟨_, writeOrderedChannel_scalar hvoid hdynamic _ _ _⟩
    | true =>
      simp only [hvoid, hdynamic, Bool.false_eq_true, if_false, if_true] at h
      obtain ⟨count, rest, rfl, hcovered, hmost⟩ := h
      rw [writeOrderedChannel_array hvoid hdynamic, if_neg (Nat.not_lt.mpr hcovered),
        if_neg (Nat.not_lt.mpr hmost)]
      exact ⟨_, rfl⟩

theorem writeOrderedChannel_eq_error_iff :
    writeOrderedChannel (w, supply) c = .error e ↔
      c.RefusesOrdered supply.values (supply.used + supply.values.length) e := by
  obtain ⟨values, used⟩ := supply
  constructor
  · intro h
    cases hvoid : c.isVoid with
    | true =>
      rw [writeOrderedChannel_of_isVoid hvoid] at h
      cases h
    | false =>
      cases values with
      | nil =>
        rw [writeOrderedChannel_nil hvoid] at h
        cases h
        refine .short ?_
        simp [Channel.CoveredBy, hvoid]
      | cons value rest =>
        cases hdynamic : c.isDynamic with
        | false =>
          rw [writeOrderedChannel_scalar hvoid hdynamic] at h
          cases h
        | true =>
          rw [writeOrderedChannel_array hvoid hdynamic] at h
          split_ifs at h with hshort hmost
          · cases h
            have hsupplied : used + 1 + rest.length = used + (value :: rest).length := by
              rw [List.length_cons]
              omega
            rw [hsupplied]
            refine .short ?_
            simpa [Channel.CoveredBy, hvoid, hdynamic] using hshort
          · cases h
            exact .long hvoid hdynamic rfl (Nat.le_of_not_lt hshort) hmost
  · rintro (⟨hshort⟩ | ⟨hvoid, hdynamic, rfl, hcovered, hmost⟩)
    · cases hvoid : c.isVoid with
      | true => exact absurd (by simp [Channel.CoveredBy, hvoid]) hshort
      | false =>
        cases values with
        | nil => exact writeOrderedChannel_nil hvoid used
        | cons value rest =>
          cases hdynamic : c.isDynamic with
          | false => exact absurd (by simp [Channel.CoveredBy, hvoid, hdynamic]) hshort
          | true =>
            have hmissing : rest.length < value.toUnsigned64 := by
              simpa [Channel.CoveredBy, hvoid, hdynamic] using hshort
            rw [writeOrderedChannel_array hvoid hdynamic, if_pos hmissing, List.length_cons,
              Nat.add_assoc, Nat.add_comm 1]
    · rw [writeOrderedChannel_array hvoid hdynamic, if_neg (Nat.not_lt.mpr hcovered), if_pos hmost]

/-- All channels before the first one that is refused have taken their values. -/
theorem leaves_of_writeOrdered {channels : List Channel}
    (h : channels.foldlM writeOrderedChannel (w, supply) = .ok next) :
    Channel.AllAcceptOrdered channels supply.values ∧
      next.2.values = Channel.leftBehind channels supply.values ∧
      next.2.used + next.2.values.length = supply.used + supply.values.length := by
  induction channels generalizing w supply with
  | nil =>
    rw [List.foldlM_nil] at h
    cases h
    exact ⟨trivial, rfl, rfl⟩
  | cons c rest ih =>
    rw [List.foldlM_cons] at h
    obtain ⟨⟨w', left⟩, hfirst, hrest⟩ := bind_eq_ok_iff.mp h
    obtain ⟨haccepts, hvalues, hsupplied⟩ := leaves_of_writeOrderedChannel hfirst
    obtain ⟨hall, hleft, htotal⟩ := ih hrest
    rw [hvalues] at hall hleft
    exact ⟨⟨haccepts, hall⟩, hleft, htotal.trans hsupplied⟩

theorem exists_foldlM_writeOrderedChannel {channels : List Channel} (w : BitWriter)
    (supply : Supply) (h : Channel.AllAcceptOrdered channels supply.values) :
    ∃ next, channels.foldlM writeOrderedChannel (w, supply) = .ok next := by
  induction channels generalizing w supply with
  | nil => exact ⟨_, rfl⟩
  | cons c rest ih =>
    obtain ⟨haccepts, hall⟩ := h
    obtain ⟨⟨w', left⟩, hfirst⟩ := exists_writeOrderedChannel haccepts w
    rw [← (leaves_of_writeOrderedChannel hfirst).2.values] at hall
    rw [List.foldlM_cons, hfirst]
    exact ih w' left hall

theorem writeOrdered_eq_error_iff {channels : List Channel} {values : List Double} :
    writeOrdered channels values = .error e ↔
      ∃ front c back, channels = front ++ c :: back ∧ Channel.AllAcceptOrdered front values ∧
        c.RefusesOrdered (Channel.leftBehind front values) values.length e := by
  rw [writeOrdered, map_eq_error_iff, foldlM_eq_error_iff]
  constructor
  · rintro ⟨front, c, back, ⟨w, left⟩, hchannels, hfront, hrefused⟩
    obtain ⟨hall, hleft, hsupplied⟩ := leaves_of_writeOrdered hfront
    rw [writeOrderedChannel_eq_error_iff, hsupplied, hleft, Nat.zero_add] at hrefused
    exact ⟨front, c, back, hchannels, hall, hrefused⟩
  · rintro ⟨front, c, back, hchannels, hall, hrefused⟩
    obtain ⟨⟨w, left⟩, hfront⟩ := exists_foldlM_writeOrderedChannel {} ⟨values, 0⟩ hall
    obtain ⟨-, hleft, hsupplied⟩ := leaves_of_writeOrdered hfront
    refine ⟨front, c, back, _, hchannels, hfront, ?_⟩
    rwa [writeOrderedChannel_eq_error_iff, hsupplied, hleft, Nat.zero_add]

end Ordered

end Payload

/-! ## Values that nothing takes -/

namespace Channel

variable {values : List Double} (extra : List Double)

theorem AcceptsOrdered.append {c : Channel} (h : c.AcceptsOrdered values) :
    c.AcceptsOrdered (values ++ extra) ∧
      c.takeOrdered (values ++ extra) =
        ((c.takeOrdered values).1, (c.takeOrdered values).2 ++ extra) := by
  unfold AcceptsOrdered at h ⊢
  unfold takeOrdered
  cases hvoid : c.isVoid with
  | true => exact ⟨trivial, rfl⟩
  | false =>
    cases hdynamic : c.isDynamic with
    | false =>
      simp only [hvoid, hdynamic, Bool.false_eq_true, if_false] at h
      obtain ⟨value, rest, rfl⟩ := List.exists_cons_of_ne_nil h
      exact ⟨List.cons_ne_nil _ _, rfl⟩
    | true =>
      simp only [hvoid, hdynamic, Bool.false_eq_true, if_false, if_true] at h
      obtain ⟨count, rest, rfl, hcovered, hmost⟩ := h
      refine ⟨⟨count, rest ++ extra, rfl, ?_, hmost⟩, ?_⟩
      · rw [List.length_append]
        exact Nat.le_add_right_of_le hcovered
      · simp [List.take_append_of_le_length hcovered, List.drop_append_of_le_length hcovered]

theorem AllAcceptOrdered.append {channels : List Channel} (h : AllAcceptOrdered channels values) :
    AllAcceptOrdered channels (values ++ extra) ∧
      leftBehind channels (values ++ extra) = leftBehind channels values ++ extra ∧
      Allotment.ofOrdered channels (values ++ extra) = Allotment.ofOrdered channels values := by
  induction channels generalizing values with
  | nil => exact ⟨trivial, rfl, rfl⟩
  | cons c rest ih =>
    obtain ⟨haccepts, hall⟩ := h
    obtain ⟨hmore, htake⟩ := haccepts.append extra
    obtain ⟨hallMore, hleft, htaken⟩ := ih hall
    unfold leftBehind at hleft ⊢
    rw [AllAcceptOrdered, List.foldl_cons, List.foldl_cons, Allotment.ofOrdered,
      Allotment.ofOrdered, htake]
    exact ⟨⟨hmore, hallMore⟩, hleft, by rw [htaken]⟩

end Channel

namespace Payload

section Conversion

variable [HalfConversion]

theorem exists_writeOrdered_iff {channels : List Channel} {values : List Double} :
    (∃ payload, writeOrdered channels values = .ok payload) ↔
      Channel.AllAcceptOrdered channels values := by
  constructor
  · rintro ⟨payload, h⟩
    obtain ⟨next, hfold, -⟩ := map_eq_ok_iff.mp h
    exact (leaves_of_writeOrdered hfold).1
  · intro hall
    obtain ⟨next, hfold⟩ := exists_foldlM_writeOrderedChannel {} ⟨values, 0⟩ hall
    exact ⟨_, map_eq_ok_iff.mpr ⟨next, hfold, rfl⟩⟩

/-- Further values make no difference, unless there were too few. -/
theorem writeOrdered_append {channels : List Channel} {values : List Double}
    (h : ∀ count, writeOrdered channels values ≠ .error (.notEnoughValues count))
    (extra : List Double) :
    writeOrdered channels (values ++ extra) = writeOrdered channels values := by
  cases hwrite : writeOrdered channels values with
  | ok payload =>
    have hall := exists_writeOrdered_iff.mp ⟨payload, hwrite⟩
    obtain ⟨hmore, -, htaken⟩ := hall.append extra
    obtain ⟨other, hother⟩ := exists_writeOrdered_iff.mpr hmore
    rw [hother, (put_of_writeOrdered hother).2, (put_of_writeOrdered hwrite).2, htaken]
  | error e =>
    obtain ⟨front, c, back, hchannels, hfront, hrefused⟩ := writeOrdered_eq_error_iff.mp hwrite
    obtain ⟨hmore, hleft, -⟩ := hfront.append extra
    refine writeOrdered_eq_error_iff.mpr ⟨front, c, back, hchannels, hmore, ?_⟩
    cases hrefused with
    | short => exact absurd hwrite (h values.length)
    | @long count rest hvoid hdynamic hvalues hcovered hmost =>
      have hlonger : Channel.leftBehind front (values ++ extra) = count :: (rest ++ extra) := by
        rw [hleft, hvalues, List.cons_append]
      refine .long hvoid hdynamic hlonger ?_ hmost
      rw [List.length_append]
      exact Nat.le_add_right_of_le hcovered

/--
Values by name are serialised exactly if every scalar has a value of its name and no array has more
elements in a row than it can carry; otherwise the error is that of the first channel of which this
is not true.  Names that no channel looks up make no difference.

Values in channel order are serialised exactly if there is a value for every scalar and for every
count, and as many elements behind a count as it says, which are no more than the array can carry;
otherwise the error is that of the first channel of which this is not true.  If it is that there are
too few values, then all of them are counted.  Further values make no difference.

Either way, only the payload of the frame is new.
-/
theorem serialize_eq_error_iff (channels : List Channel) (template : Frame) :
    (∀ values : NamedValues,
      ((∃ f, template.serializeNamed channels values = .ok f) ↔
        ∀ c ∈ channels, c.AcceptsNamed values) ∧
      (∀ e, template.serializeNamed channels values = .error e ↔
        ∃ front c back, channels = front ++ c :: back ∧ (∀ d ∈ front, d.AcceptsNamed values) ∧
          c.RefusesNamed values e) ∧
      (∀ f, template.serializeNamed channels values = .ok f →
        f = { template with payload := f.payload }) ∧
      ∀ other : NamedValues,
        (∀ c ∈ channels, ∀ key, c.LooksUp values key → other.get? key = values.get? key) →
          template.serializeNamed channels other = template.serializeNamed channels values) ∧
    ∀ values : List Double,
      ((∃ f, template.serializeOrdered channels values = .ok f) ↔
        Channel.AllAcceptOrdered channels values) ∧
      (∀ e, template.serializeOrdered channels values = .error e ↔
        ∃ front c back, channels = front ++ c :: back ∧ Channel.AllAcceptOrdered front values ∧
          c.RefusesOrdered (Channel.leftBehind front values) values.length e) ∧
      (∀ count, template.serializeOrdered channels values = .error (.notEnoughValues count) →
        count = values.length) ∧
      (∀ f, template.serializeOrdered channels values = .ok f →
        f = { template with payload := f.payload }) ∧
      ∀ extra,
        (∀ count, template.serializeOrdered channels values ≠ .error (.notEnoughValues count)) →
          template.serializeOrdered channels (values ++ extra) =
            template.serializeOrdered channels values := by
  unfold Frame.serializeNamed Frame.serializeOrdered
  have hpayload : ∀ {result : Except FrameError Bytes} {f : Frame},
      (result.map fun payload => { template with payload }) = .ok f →
        f = { template with payload := f.payload } := by
    intro result f h
    obtain ⟨payload, -, rfl⟩ := map_eq_ok_iff.mp h
    rfl
  have hexists : ∀ {result : Except FrameError Bytes},
      (∃ f, (result.map fun payload => { template with payload }) = .ok f) ↔
        ∃ payload, result = .ok payload := by
    intro result
    simp [map_eq_ok_iff]
  constructor
  · intro values
    refine ⟨?_, fun e => ?_, fun f => hpayload, fun other hother => ?_⟩
    · rw [hexists, writeNamed, ← exists_foldlM_writeNamedChannel_iff (w := {})]
      simp [map_eq_ok_iff]
    · rw [map_eq_error_iff, writeNamed_eq_error_iff]
    · rw [writeNamed_congr hother]
  · intro values
    refine ⟨?_, fun e => ?_, fun count h => ?_, fun f => hpayload, fun extra h => ?_⟩
    · rw [hexists, exists_writeOrdered_iff]
    · rw [map_eq_error_iff, writeOrdered_eq_error_iff]
    · rw [map_eq_error_iff, writeOrdered_eq_error_iff] at h
      obtain ⟨_, _, _, -, -, hrefused⟩ := h
      cases hrefused with
      | short => rfl
    · rw [writeOrdered_append (fun count hcount => h count (map_eq_error_iff.mpr hcount))]

end Conversion

open scoped HalfConversion in
/-- An array of padding takes neither elements nor a count, however many values there are. -/
theorem serialize_array_of_padding :
    let c := Channel.dynamicArray .void 8 "b" 1
    let values : NamedValues := Bindings.ofList [("b_0", Double.one)]
    let f := { Frame.message 1 1 0 with payload := #[0] }
    c.isDynamic = true ∧ c.IsRun values 1 ∧ c.maxCount < 1 ∧
      (Frame.message 1 1 0).serializeNamed [c] values = .ok f ∧
      (Frame.message 1 1 0).serializeOrdered [c] [] = .ok f := by
  intro c values f
  exact ⟨rfl, Channel.isRun_iff.mpr (by decide +kernel), by decide, by decide +kernel,
    by decide +kernel⟩

end Payload

end BusSchema
