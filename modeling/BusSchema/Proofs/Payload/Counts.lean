import BusSchema.Proofs.Layout.Capacity
import BusSchema.Proofs.Number.Exact
import BusSchema.Proofs.Payload.Canonical

/-!
# Counts that are given, sent and read

The count of an array of scalars is the number of its elements; that of an array of compounds is
the value of a channel of its own.  The first one is checked before it is written and after it is
read, and comes back as it was given.  The second one is written like any other number, cut to its
width (`countAt?_of_writeNamed`, `countAt?_of_writeOrdered`, `countAt?_of_read`).
-/

namespace BusSchema

open Bits BitWriter

namespace Channel

/-- The channel says how many elements an array has: as the array itself, or as its count. -/
inductive IsCount : Channel → Prop
  | array (p : Primitive) (name : String) (capacity : Nat) :
    IsCount (dynamicArray p.kind p.width name capacity)
  | number {width : Nat} (hwidth : width ≤ 32) (name : String) :
    IsCount (scalar .unsigned width name)

/-- The count that values of the channel stand for. -/
def countOf (c : Channel) (elements : List Double) : Nat :=
  if c.isDynamic then elements.length else elements.head?.elim 0 Double.toUnsigned64

/-- What becomes of a count on the wire. -/
def sentCount (c : Channel) (count : Nat) : Nat :=
  if c.isDynamic then count else lowBits c.width count

/-- The values in channel order that are left when the channels have taken theirs. -/
def leftBehind (channels : List Channel) (values : List Double) : List Double :=
  channels.foldl (fun left c => (c.takeOrdered left).2) values

theorem IsCount.isVoid {c : Channel} (hc : c.IsCount) : c.isVoid = false := by
  cases hc with
  | array p name capacity => simp [Channel.isVoid, dynamicArray, p.kind_ne_void]
  | number hwidth name => rfl

theorem lowBits_lt {width : Nat} (hwidth : width ≤ 32) (count : Nat) :
    lowBits width count < 2 ^ width := by
  rw [lowBits_eq_mod (Nat.le_trans hwidth (by decide))]
  exact Nat.mod_lt _ (Nat.two_pow_pos width)

theorem IsCount.lowBits_width {c : Channel} (hc : c.IsCount) (hdynamic : c.isDynamic = false)
    (count : Nat) : lowBits c.width count = count % 2 ^ c.width := by
  cases hc with
  | array p name capacity => cases hdynamic
  | number hwidth name => exact lowBits_eq_mod (Nat.le_trans hwidth (by decide)) count

/-- A count of at most 32 bits comes back from its double. -/
theorem toUnsigned64_ofNat_of_lt {width n : Nat} (hwidth : width ≤ 32) (hn : n < 2 ^ width) :
    (Double.ofNat n).toUnsigned64 = n := by
  apply Double.toUnsigned64_ofNat
  calc n < 2 ^ width := hn
    _ ≤ 2 ^ 32 := Nat.pow_le_pow_right (by decide) hwidth
    _ ≤ 2 ^ 53 := by decide

theorem countOf_number (width : Nat) (name : String) (value : Double) :
    (scalar .unsigned width name).countOf [value] = value.toUnsigned64 := rfl

theorem transmit_number [HalfConversion] (width : Nat) (name : String) (value : Double) :
    (scalar .unsigned width name).transmit value =
      Double.ofNat (lowBits width value.toUnsigned64) := rfl

/-- The values come out of the codec with the count that the wire carries. -/
theorem IsCount.countOf_transmit [HalfConversion] {c : Channel} (hc : c.IsCount)
    {elements : List Double} (hadmits : c.Admits elements.length) :
    c.countOf (elements.map c.transmit) = c.sentCount (c.countOf elements) := by
  cases hc with
  | array p name capacity => simp [countOf, sentCount, dynamicArray, isDynamic]
  | @number width hwidth name =>
    have hone : elements.length = 1 := by
      simpa [Admits, scalar, Channel.isVoid, isDynamic] using hadmits
    obtain ⟨value, rfl⟩ := List.length_eq_one_iff.mp hone
    rw [List.map_singleton, transmit_number, countOf_number, countOf_number,
      toUnsigned64_ofNat_of_lt hwidth (lowBits_lt hwidth _)]
    rfl

end Channel

namespace Allotment

theorem ofNamed_append (front back : List Channel) (values : NamedValues) :
    ofNamed (front ++ back) values = ofNamed front values ++ ofNamed back values :=
  List.map_append

theorem ofOrdered_append (front back : List Channel) (values : List Double) :
    ofOrdered (front ++ back) values =
      ofOrdered front values ++ ofOrdered back (Channel.leftBehind front values) := by
  induction front generalizing values with
  | nil => rfl
  | cons c rest ih =>
    rw [List.cons_append, ofOrdered, ih]
    rfl

/-- A channel whose keys are its own finds its values among those of all channels. -/
theorem valuesIn_named {front back : Allotment} {c : Channel} {elements : List Double}
    (hadmits : c.Admits elements.length)
    (hown : ∀ other ∈ front.map Prod.fst ++ back.map Prod.fst, ∀ key, c.HasKey key →
      ¬other.HasKey key) :
    c.valuesIn (Bindings.ofList (named (front ++ (c, elements) :: back))) = elements := by
  have happart : ∀ part : Allotment,
      (∀ other ∈ part.map Prod.fst, ∀ key, c.HasKey key → ¬other.HasKey key) →
      ∀ key, c.HasKey key → ∀ pair ∈ part.named, pair.1 ≠ key := by
    rintro part hpart key hkey pair hpair rfl
    obtain ⟨other, hother, hotherKey⟩ := hasKey_of_mem_named hpair
    exact hpart other hother pair.1 hkey hotherKey
  have hfront := happart front fun other hother => hown other (List.mem_append_left _ hother)
  have hback := happart back fun other hother => hown other (List.mem_append_right _ hother)
  have hnamed : named (front ++ (c, elements) :: back) =
      named front ++ (c.named elements ++ named back) := by
    unfold named
    rw [List.flatMap_append, List.flatMap_cons]
  have hempty : ∀ key, c.HasKey key →
      (Bindings.bindAll ({} : NamedValues) (named front)).get? key = none := by
    intro key hkey
    rw [Bindings.get?_bindAll_of_ne (hfront key hkey)]
    rfl
  refine Eq.trans (Channel.valuesIn_congr fun key hkey => ?_)
    (Channel.valuesIn_bindAll_named hadmits.fills hempty)
  have hlist : Bindings.ofList (named front ++ (c.named elements ++ named back)) =
      ((Bindings.bindAll {} (named front)).bindAll (c.named elements)).bindAll (named back) := by
    rw [← Bindings.bindAll_append, ← Bindings.bindAll_append]
    rfl
  rw [hnamed, hlist, Bindings.get?_bindAll_of_ne (hback key hkey)]

variable [HalfConversion]

theorem ofBytes_append (bytes : Bytes) (front back : List Channel) (offset : Nat) :
    ofBytes bytes (front ++ back) offset =
      ofBytes bytes front offset ++
        ofBytes bytes back (offset + (ofBytes bytes front offset).bits) := by
  induction front generalizing offset with
  | nil => rfl
  | cons c rest ih =>
    rw [List.cons_append, ofBytes, ih, ofBytes, bits_cons, Channel.length_valuesAt, Nat.add_assoc]
    rfl

/-- The bytes of an allotment hold its values as they come out of the codec. -/
theorem ofBytes_puts {allotment : Allotment} (hcodable : ∀ entry ∈ allotment, entry.1.IsCodable)
    (hadmitted : allotment.Admitted) :
    ofBytes (allotment.foldl Payload.put {}).bytes (allotment.map Prod.fst) 0 =
      allotment.transmit := by
  have htight : (allotment.foldl Payload.put {}).Tight :=
    Payload.tight_puts tight_empty hcodable
  have hagrees := htight.agrees_append #[]
  rw [Array.append_empty] at hagrees
  exact ofBytes_of_agrees hcodable hadmitted hagrees

end Allotment

namespace Payload

/-- The count in a payload at the position of a channel. -/
def countAt? [HalfConversion] (channels : List Channel) (payload : Bytes) (position : Nat) :
    Option Nat :=
  ((Allotment.ofBytes payload channels 0)[position]?).map fun entry => entry.1.countOf entry.2

variable [HalfConversion] {before after : List Channel} {c : Channel} (hc : c.IsCount)
  (hchannels : ∀ d ∈ before ++ c :: after, d.IsCodable)

include hc hchannels

/-- The count of an allotment that was written. -/
theorem countAt?_of_puts {front back : Allotment} {elements : List Double}
    (hfront : front.map Prod.fst = before) (hback : back.map Prod.fst = after)
    (hadmitted : Allotment.Admitted (front ++ (c, elements) :: back)) :
    countAt? (before ++ c :: after) ((front ++ (c, elements) :: back).foldl put {}).bytes
        before.length = some (c.sentCount (c.countOf elements)) ∧
      (c.isDynamic = true → c.countOf elements ≤ c.maxCount) := by
  subst hfront hback
  have hall : (front ++ (c, elements) :: back).map Prod.fst =
      front.map Prod.fst ++ c :: back.map Prod.fst := by simp
  have hcodable := codable_of_channels hchannels hall
  have hadmits : c.Admits elements.length := hadmitted (c, elements) (by simp)
  have hbytes := Allotment.ofBytes_puts hcodable hadmitted
  rw [hall] at hbytes
  constructor
  · rw [countAt?, hbytes, ← hc.countOf_transmit hadmits]
    simp [Allotment.transmit]
  · intro hdynamic
    simpa [Channel.countOf, Channel.Admits, hc.isVoid, hdynamic] using hadmits

/-- Values by name: the count is that of the values of the channel. -/
theorem countAt?_of_writeNamed {values : NamedValues} {payload : Bytes}
    (h : writeNamed (before ++ c :: after) values = .ok payload) :
    countAt? (before ++ c :: after) payload before.length =
        some (c.sentCount (c.countOf (c.valuesIn values))) ∧
      (c.isDynamic = true → c.countOf (c.valuesIn values) ≤ c.maxCount) := by
  obtain ⟨hadmitted, rfl⟩ := writeNamed_eq_ok_iff.mp h
  rw [Allotment.ofNamed_append] at hadmitted ⊢
  exact countAt?_of_puts hc hchannels (channels_ofNamed before values)
    (channels_ofNamed after values) hadmitted

omit hchannels in
/-- Another value for a count of its own is accepted, whatever it is. -/
theorem exists_writeNamed_bind (hdynamic : c.isDynamic = false)
    (hown : ∀ other ∈ before ++ after, ∀ key, c.HasKey key → ¬other.HasKey key)
    {values : NamedValues} {payload : Bytes}
    (h : writeNamed (before ++ c :: after) values = .ok payload) (value : Double) :
    ∃ other, writeNamed (before ++ c :: after) (values.bind c.name value) = .ok other := by
  refine ⟨_, writeNamed_eq_ok_iff.mpr ⟨?_, rfl⟩⟩
  have hkey : c.HasKey c.name := ⟨hc.isVoid, by simp [hdynamic]⟩
  have hself : c.Admits (c.valuesIn (values.bind c.name value)).length := by
    simp [Channel.Admits, Channel.valuesIn, hc.isVoid, hdynamic, Bindings.get?_bind]
  have hother : ∀ d ∈ before ++ after,
      d.valuesIn (values.bind c.name value) = d.valuesIn values := by
    intro d hd
    apply Channel.valuesIn_congr
    intro key hdkey
    have hne : c.name ≠ key := fun hname => hown d hd key (hname ▸ hkey) hdkey
    rw [Bindings.get?_bind, if_neg hne]
  intro entry hentry
  obtain ⟨d, hd, rfl⟩ := List.mem_map.mp hentry
  by_cases hsame : d = c
  · rw [hsame]
    exact hself
  · have hapart : d ∈ before ++ after := by
      simpa [hsame] using hd
    rw [hother d hapart]
    exact (writeNamed_eq_ok_iff.mp h).1 _ (List.mem_map_of_mem hd)

omit hchannels in
/-- Values in order: there is a value at the place of the channel, and it is the count. -/
theorem exists_count_of_writeOrdered {values : List Double} {payload : Bytes}
    (h : writeOrdered (before ++ c :: after) values = .ok payload) :
    ∃ value, (Channel.leftBehind before values).head? = some value ∧
      c.countOf (c.takeOrdered (Channel.leftBehind before values)).1 = value.toUnsigned64 := by
  have hsupply : ∀ {channels : List Channel} {w : BitWriter} {supply : Supply}
      {next : BitWriter × Supply}, channels.foldlM writeOrderedChannel (w, supply) = .ok next →
      next.2.values = Channel.leftBehind channels supply.values := by
    intro channels
    induction channels with
    | nil =>
      intro w supply next h
      cases h
      rfl
    | cons d rest ih =>
      intro w supply next h
      obtain ⟨⟨w', supply'⟩, hfirst, hrest⟩ := bind_eq_ok_iff.mp (by rwa [List.foldlM_cons] at h)
      obtain ⟨-, -, hleft⟩ := put_of_writeOrderedChannel hfirst
      rw [ih hrest, hleft]
      rfl
  obtain ⟨last, hfold, -⟩ := map_eq_ok_iff.mp h
  rw [List.foldlM_append] at hfold
  obtain ⟨⟨w, supply⟩, hbefore, hrest⟩ := bind_eq_ok_iff.mp hfold
  rw [List.foldlM_cons] at hrest
  obtain ⟨next, hwrite, -⟩ := bind_eq_ok_iff.mp hrest
  rw [← hsupply hbefore]
  obtain ⟨left, used⟩ := supply
  unfold writeOrderedChannel at hwrite
  rw [hc.isVoid] at hwrite
  unfold Channel.takeOrdered Channel.countOf
  rw [hc.isVoid]
  cases left with
  | nil => cases hdynamic : c.isDynamic <;> rw [hdynamic] at hwrite <;> cases hwrite
  | cons value rest =>
    refine ⟨value, rfl, ?_⟩
    cases hdynamic : c.isDynamic with
    | false => rfl
    | true =>
      simp only [hdynamic, Bool.false_eq_true, if_false, if_true, bind_eq_ok_iff] at hwrite
      obtain ⟨⟨count, afterCount⟩, hcount, ⟨elements, left⟩, htake, -⟩ := hwrite
      cases hcount
      simp only [List.head?_cons, Option.elim_some, List.tail_cons, Bool.false_eq_true, if_false,
        if_true, List.length_take]
      unfold Supply.take at htake
      split at htake
      · cases htake
      · next hmany => exact Nat.min_eq_left (Nat.le_of_not_lt hmany)

/-- Values in order: the count is the value at the place of the channel. -/
theorem countAt?_of_writeOrdered {values : List Double} {payload : Bytes}
    (h : writeOrdered (before ++ c :: after) values = .ok payload) :
    ∃ value, (Channel.leftBehind before values).head? = some value ∧
      countAt? (before ++ c :: after) payload before.length =
        some (c.sentCount value.toUnsigned64) ∧
      (c.isDynamic = true → value.toUnsigned64 ≤ c.maxCount) := by
  obtain ⟨value, hvalue, hcount⟩ := exists_count_of_writeOrdered hc h
  obtain ⟨hadmitted, rfl⟩ := put_of_writeOrdered h
  rw [Allotment.ofOrdered_append] at hadmitted ⊢
  refine ⟨value, hvalue, ?_⟩
  rw [← hcount]
  exact countAt?_of_puts hc hchannels (channels_ofOrdered before values)
    (channels_ofOrdered after _) hadmitted

/-- A payload that is read has a count that was checked, and its values are read as so many. -/
theorem countAt?_of_read {payload : Bytes} {values : NamedValues}
    (h : read (before ++ c :: after) payload = .ok values) :
    ∃ count, countAt? (before ++ c :: after) payload before.length = some count ∧
      (if c.isDynamic then count ≤ c.maxCount else count < 2 ^ c.width) ∧
      ((∀ other ∈ before ++ after, ∀ key, c.HasKey key → ¬other.HasKey key) →
        c.countOf (c.valuesIn values) = count) := by
  obtain ⟨next, hread, rfl⟩ := map_eq_ok_iff.mp h
  obtain ⟨hadmitted, -, rfl⟩ := (readChannels_eq_ok_iff hchannels (Nat.zero_le _)).mp hread
  have hfront := Allotment.channels_ofBytes payload before 0
  simp only [countAt?, Allotment.ofBytes_append, Nat.zero_add, Allotment.ofBytes] at hadmitted ⊢
  generalize hoffset : (Allotment.ofBytes payload before 0).bits = offset at hadmitted ⊢
  generalize hlater : offset + c.bitsOf (c.countAt payload offset) = later at hadmitted ⊢
  have hback := Allotment.channels_ofBytes payload after later
  have hadmits : c.Admits (c.valuesAt payload offset).length :=
    hadmitted (c, c.valuesAt payload offset) (List.mem_append_right _ List.mem_cons_self)
  have hlength : (Allotment.ofBytes payload before 0).length = before.length := by
    rw [← hfront, List.length_map, hfront]
  refine ⟨c.countOf (c.valuesAt payload offset), by simp [← hlength], ?_, ?_⟩
  · cases hc with
    | array p name capacity =>
      have hvoid := (Channel.IsCount.array p name capacity).isVoid
      have hdynamic : (Channel.dynamicArray p.kind p.width name capacity).isDynamic = true := rfl
      rw [Channel.Admits, hvoid, hdynamic] at hadmits
      rw [Channel.countOf, hdynamic]
      exact hadmits
    | @number width hwidth name =>
      have hlt : gather (bitAt payload) (offset + 0 + 0 * width) width < 2 ^ width :=
        gather_lt _ _ _
      have hvalues : (Channel.scalar .unsigned width name).valuesAt payload offset =
          [Double.ofNat (gather (bitAt payload) (offset + 0 + 0 * width) width)] := rfl
      rw [hvalues, Channel.countOf_number, Channel.toUnsigned64_ofNat_of_lt hwidth hlt]
      exact hlt
  · intro hown
    rw [← hfront, ← hback] at hown
    exact congrArg c.countOf (Allotment.valuesIn_named hadmits hown)

end Payload

end BusSchema
