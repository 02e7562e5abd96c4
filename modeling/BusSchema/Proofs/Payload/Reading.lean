import BusSchema.Proofs.Payload.Names
import BusSchema.Proofs.Payload.Stream
import BusSchema.Proofs.Results

/-!
# What reading a payload comes to

Which bits a channel takes of a payload, and which values they stand for, depends on the bytes and
the position only.  `readChannel_eq_ok_iff` and `readChannels_eq_ok_iff` say that reading succeeds
exactly if the counts are admitted and the bits are there, and what it then gives.  Otherwise the
payload ends too early or counts too many elements (`unreadable_of_read`).
-/

namespace BusSchema

open Bits

namespace Channel

/-- The channel fits the codec: neither its values nor its count have more than 64 bits. -/
structure IsCodable (c : Channel) : Prop where
  width : c.isVoid = false → c.width ≤ maxValueWidth
  countWidth_le : c.countWidth ≤ maxValueWidth

/-- The channel can carry so many values: none, one, or up to the greatest count. -/
def Admits (c : Channel) (count : Nat) : Prop :=
  if c.isVoid then count = 0 else if c.isDynamic then count ≤ c.maxCount else count = 1

/-- The number of values that the channel has in the bytes from a position on. -/
def countAt (c : Channel) (bytes : Bytes) (offset : Nat) : Nat :=
  if c.isVoid then 0
  else if c.isDynamic then gather (bitAt bytes) offset c.countWidth
  else 1

/-- The number of bits that a channel with so many values takes. -/
def bitsOf (c : Channel) (count : Nat) : Nat :=
  if c.isVoid then c.width else c.countWidth + count * c.width

/-- So many values of the channel, which stand without gaps from a position on. -/
def elementsAt [HalfConversion] (c : Channel) (bytes : Bytes) (offset count : Nat) : List Double :=
  (List.range count).map fun index =>
    c.kind.decode c.width (gather (bitAt bytes) (offset + index * c.width) c.width)

/-- The values that the channel has in the bytes from a position on. -/
def valuesAt [HalfConversion] (c : Channel) (bytes : Bytes) (offset : Nat) : List Double :=
  c.elementsAt bytes (offset + c.countWidth) (c.countAt bytes offset)

theorem map_range_stride {α : Type} (f : Nat → α) (offset stride count : Nat) :
    (List.range (count + 1)).map (fun index => f (offset + index * stride)) =
      f offset :: (List.range count).map fun index => f (offset + stride + index * stride) := by
  rw [List.range_succ_eq_map, List.map_cons, List.map_map, Nat.zero_mul, Nat.add_zero]
  congr 1
  apply List.map_congr_left
  intro index _
  rw [Function.comp_apply, Nat.succ_mul]
  congr 1
  omega

theorem countWidth_eq_zero {c : Channel} (h : c.isDynamic = false) : c.countWidth = 0 := by
  have hnone : c.count = none := Option.isSome_eq_false_iff.mp h |> Option.isNone_iff_eq_none.mp
  rw [countWidth, hnone]
  rfl

theorem ceilLog2_le {n : Nat} (h : n ≤ max32) : ceilLog2 n ≤ 32 := by
  unfold ceilLog2
  split
  · exact Nat.zero_le _
  · have hpos : n - 1 ≠ 0 := by omega
    have hlt : n - 1 < 2 ^ 32 := by
      have hmax : max32 = 2 ^ 32 - 1 := rfl
      omega
    exact (Nat.log2_lt hpos).mpr hlt

theorem isCodable_scalar {width : Nat} (hwidth : width ≤ maxValueWidth) (kind : ScalarKind)
    (name : String) : (scalar kind width name).IsCodable :=
  ⟨fun _ => hwidth, Nat.zero_le _⟩

theorem isCodable_padding (width : Nat) : (padding width).IsCodable := by
  refine ⟨fun h => ?_, Nat.zero_le _⟩
  simp [padding, isVoid] at h

theorem isCodable_dynamicArray {width capacity : Nat} (hwidth : width ≤ maxValueWidth)
    (hcapacity : capacity ≤ max32) (kind : ScalarKind) (name : String) :
    (dynamicArray kind width name capacity).IsCodable :=
  ⟨fun _ => hwidth, Nat.le_trans (ceilLog2_le hcapacity) (by decide)⟩

theorem maxCount_lt {c : Channel} : c.maxCount < patternCount c.countWidth := by
  have hpos : 0 < patternCount c.countWidth := Nat.pow_pos (by decide)
  unfold maxCount
  omega

variable [HalfConversion]

@[simp]
theorem length_valuesAt (c : Channel) (bytes : Bytes) (offset : Nat) :
    (c.valuesAt bytes offset).length = c.countAt bytes offset := by
  simp [valuesAt, elementsAt]

theorem elementsAt_succ (c : Channel) (bytes : Bytes) (offset count : Nat) :
    c.elementsAt bytes offset (count + 1) =
      c.kind.decode c.width (gather (bitAt bytes) offset c.width) ::
        c.elementsAt bytes (offset + c.width) count :=
  map_range_stride (fun start => c.kind.decode c.width (gather (bitAt bytes) start c.width))
    offset c.width count

end Channel

namespace Payload

theorem readRaw_eq_ok_iff {width : Nat} {r : BitReader} {x : Nat × BitReader} :
    readRaw width r = .ok x ↔
      width ≤ maxValueWidth ∧ r.offset + width ≤ 8 * r.bytes.size ∧
        x = (gather (bitAt r.bytes) r.offset width, ⟨r.bytes, r.offset + width⟩) := by
  unfold readRaw BitReader.read?
  rw [read?_eq]
  by_cases hfits : width ≤ maxValueWidth ∧ r.offset + width ≤ 8 * r.bytes.size
  · simp [hfits, eq_comm]
  · simp only [if_neg hfits, Option.map_none, reduceCtorEq, false_iff]
    exact fun h => hfits ⟨h.1, h.2.1⟩

theorem skipBits_eq_ok_iff {width : Nat} {r : BitReader} (hr : r.offset ≤ 8 * r.bytes.size)
    {x : BitReader} :
    skipBits width r = .ok x ↔
      r.offset + width ≤ 8 * r.bytes.size ∧ x = ⟨r.bytes, r.offset + width⟩ := by
  unfold skipBits BitReader.skip?
  by_cases hfits : r.remaining < width
  · have hover : ¬r.offset + width ≤ 8 * r.bytes.size := by
      unfold BitReader.remaining at hfits
      omega
    simp [hfits, hover]
  · have hunder : r.offset + width ≤ 8 * r.bytes.size := by
      unfold BitReader.remaining at hfits
      omega
    simp [hfits, hunder, eq_comm]

variable [HalfConversion]

theorem readNamed_eq_ok_iff {c : Channel} {name : String} {values : NamedValues} {r : BitReader}
    (hwidth : c.width ≤ maxValueWidth) {x : NamedValues × BitReader} :
    readNamed c name values r = .ok x ↔
      r.offset + c.width ≤ 8 * r.bytes.size ∧
        x = (values.bind name (c.kind.decode c.width (gather (bitAt r.bytes) r.offset c.width)),
          ⟨r.bytes, r.offset + c.width⟩) := by
  unfold readNamed
  rw [bind_eq_ok_iff]
  constructor
  · rintro ⟨next, hraw, hx⟩
    obtain ⟨-, hfits, rfl⟩ := readRaw_eq_ok_iff.mp hraw
    exact ⟨hfits, (Except.ok.inj hx).symm⟩
  · rintro ⟨hfits, rfl⟩
    exact ⟨_, readRaw_eq_ok_iff.mpr ⟨hwidth, hfits, rfl⟩, rfl⟩

theorem readElements_eq_ok_iff {c : Channel} (hwidth : c.width ≤ maxValueWidth)
    {count index : Nat} {values : NamedValues} {r : BitReader}
    (hr : r.offset ≤ 8 * r.bytes.size) {x : NamedValues × BitReader} :
    readElements c count index values r = .ok x ↔
      r.offset + count * c.width ≤ 8 * r.bytes.size ∧
        x = (values.bindAll ((c.elementsAt r.bytes r.offset count).mapIdx fun i value =>
            (c.elementName (index + i), value)),
          ⟨r.bytes, r.offset + count * c.width⟩) := by
  induction count generalizing index values r with
  | zero => simp [readElements, Channel.elementsAt, hr, eq_comm]
  | succ count ih =>
    have hbits : r.offset + (count + 1) * c.width = r.offset + c.width + count * c.width := by
      rw [Nat.succ_mul]
      omega
    have hnames : ∀ value : Double, ∀ i : Nat,
        (c.elementName (index + (i + 1)), value) = (c.elementName (index + 1 + i), value) := by
      intro value i
      rw [Nat.add_right_comm, Nat.add_assoc]
    rw [readElements, bind_eq_ok_iff, hbits, Channel.elementsAt_succ, List.mapIdx_cons]
    simp only [hnames, Nat.add_zero]
    constructor
    · rintro ⟨next, hfirst, hrest⟩
      obtain ⟨hfits, rfl⟩ := (readNamed_eq_ok_iff hwidth).mp hfirst
      exact (ih hfits).mp hrest
    · rintro ⟨hfits, rfl⟩
      have hfirst : r.offset + c.width ≤ 8 * r.bytes.size := by omega
      exact ⟨_, (readNamed_eq_ok_iff hwidth).mpr ⟨hfirst, rfl⟩, (ih hfirst).mpr ⟨hfits, rfl⟩⟩

theorem readChannel_of_isDynamic {c : Channel} (hvoid : c.isVoid = false)
    (hdynamic : c.isDynamic = true) (values : NamedValues) (r : BitReader) :
    readChannel c values r =
      readRaw c.countWidth r >>= fun next =>
        if c.maxCount < next.1 then .error (.arrayTooLong c.name c.maxCount next.1)
        else readElements c next.1 0 values next.2 := by
  rw [readChannel, if_neg (by simp [hvoid]), if_pos hdynamic]
  cases readRaw c.countWidth r with
  | error e => rfl
  | ok next =>
    simp only [bind, Except.bind]
    split <;> rfl

/-- Reading one channel succeeds exactly if its count is admitted and its bits are there. -/
theorem readChannel_eq_ok_iff {c : Channel} (hc : c.IsCodable) {bytes : Bytes} {offset : Nat}
    (hoffset : offset ≤ 8 * bytes.size) {values : NamedValues} {x : NamedValues × BitReader} :
    readChannel c values ⟨bytes, offset⟩ = .ok x ↔
      c.Admits (c.countAt bytes offset) ∧
        offset + c.bitsOf (c.countAt bytes offset) ≤ 8 * bytes.size ∧
          x = (values.bindAll (c.named (c.valuesAt bytes offset)),
            ⟨bytes, offset + c.bitsOf (c.countAt bytes offset)⟩) := by
  unfold Channel.valuesAt Channel.Admits Channel.countAt Channel.bitsOf Channel.named
  cases hvoid : c.isVoid with
  | true =>
    simp only [readChannel, hvoid, if_true, true_and, bind_eq_ok_iff, Bindings.bindAll_nil]
    constructor
    · rintro ⟨next, hskip, hx⟩
      obtain ⟨hfits, rfl⟩ := (skipBits_eq_ok_iff hoffset).mp hskip
      exact ⟨hfits, (Except.ok.inj hx).symm⟩
    · rintro ⟨hfits, rfl⟩
      exact ⟨_, (skipBits_eq_ok_iff hoffset).mpr ⟨hfits, rfl⟩, rfl⟩
  | false =>
    have hwidth := hc.width hvoid
    cases hdynamic : c.isDynamic with
    | false =>
      have hcount := Channel.countWidth_eq_zero hdynamic
      simp only [readChannel, hvoid, hdynamic, Bool.false_eq_true, if_false, true_and, hcount,
        Nat.add_zero, Nat.zero_add, Nat.one_mul]
      rw [readNamed_eq_ok_iff hwidth]
      simp [Channel.elementsAt, Bindings.bindAll]
    | true =>
      simp only [readChannel_of_isDynamic hvoid hdynamic, Bool.false_eq_true, if_false, if_true,
        bind_eq_ok_iff, ← Nat.add_assoc]
      constructor
      · rintro ⟨next, hcount, hrest⟩
        obtain ⟨-, hfits, rfl⟩ := readRaw_eq_ok_iff.mp hcount
        split at hrest
        · cases hrest
        · next hmost =>
          have helements := (readElements_eq_ok_iff hwidth hfits).mp hrest
          simp only [Nat.zero_add] at helements
          exact ⟨Nat.le_of_not_lt hmost, helements⟩
      · rintro ⟨hadmits, hfits, rfl⟩
        have hcounted : offset + c.countWidth ≤ 8 * bytes.size := by omega
        refine ⟨_, readRaw_eq_ok_iff.mpr ⟨hc.countWidth_le, hcounted, rfl⟩, ?_⟩
        rw [if_neg (Nat.not_lt.mpr hadmits), readElements_eq_ok_iff hwidth hcounted]
        simp only [Nat.zero_add, and_true]
        exact hfits

end Payload

/-- Channels, each with values that it takes. -/
abbrev Allotment := List (Channel × List Double)

namespace Allotment

/-- Each channel can carry its values. -/
def Admitted (allotment : Allotment) : Prop :=
  ∀ entry ∈ allotment, entry.1.Admits entry.2.length

/-- The values under their names, in order. -/
def named (allotment : Allotment) : List (String × Double) :=
  allotment.flatMap fun entry => entry.1.named entry.2

/-- The number of bits that the channels take with their values. -/
def bits (allotment : Allotment) : Nat :=
  total (allotment.map fun entry => entry.1.bitsOf entry.2.length)

@[simp]
theorem named_cons (entry : Channel × List Double) (rest : Allotment) :
    named (entry :: rest) = entry.1.named entry.2 ++ named rest := rfl

@[simp]
theorem bits_cons (entry : Channel × List Double) (rest : Allotment) :
    bits (entry :: rest) = entry.1.bitsOf entry.2.length + bits rest := rfl

theorem admitted_cons_iff {entry : Channel × List Double} {rest : Allotment} :
    Admitted (entry :: rest) ↔ entry.1.Admits entry.2.length ∧ Admitted rest :=
  List.forall_mem_cons

/-- The values that channels have in the bytes from a position on. -/
def ofBytes [HalfConversion] (bytes : Bytes) : List Channel → Nat → Allotment
  | [], _ => []
  | c :: rest, offset =>
    (c, c.valuesAt bytes offset) ::
      ofBytes bytes rest (offset + c.bitsOf (c.countAt bytes offset))

end Allotment

namespace Payload

/-- Reading succeeds exactly if all counts are admitted and all bits are there. -/
theorem readChannels_eq_ok_iff [HalfConversion] {channels : List Channel}
    (hchannels : ∀ c ∈ channels, c.IsCodable) {bytes : Bytes} {offset : Nat}
    (hoffset : offset ≤ 8 * bytes.size) {values : NamedValues} {x : NamedValues × BitReader} :
    readChannels channels values ⟨bytes, offset⟩ = .ok x ↔
      let allotment := Allotment.ofBytes bytes channels offset
      allotment.Admitted ∧ offset + allotment.bits ≤ 8 * bytes.size ∧
        x = (values.bindAll allotment.named, ⟨bytes, offset + allotment.bits⟩) := by
  induction channels generalizing offset values with
  | nil =>
    simp [readChannels, Allotment.ofBytes, Allotment.Admitted, Allotment.named, Allotment.bits,
      total, hoffset, eq_comm]
  | cons c rest ih =>
    have hc := hchannels c List.mem_cons_self
    have ih := @ih fun d hd => hchannels d (List.mem_cons_of_mem _ hd)
    simp only [readChannels, bind_eq_ok_iff, Allotment.ofBytes, Allotment.admitted_cons_iff,
      Allotment.named_cons, Allotment.bits_cons, Channel.length_valuesAt, Bindings.bindAll_append,
      ← Nat.add_assoc]
    constructor
    · rintro ⟨next, hfirst, hrest⟩
      obtain ⟨hadmits, hfits, rfl⟩ := (readChannel_eq_ok_iff hc hoffset).mp hfirst
      obtain ⟨hadmitted, hall, rfl⟩ := (ih hfits).mp hrest
      exact ⟨⟨hadmits, hadmitted⟩, hall, rfl⟩
    · rintro ⟨⟨hadmits, hadmitted⟩, hall, rfl⟩
      have hfits : offset + c.bitsOf (c.countAt bytes offset) ≤ 8 * bytes.size := by omega
      exact ⟨_, (readChannel_eq_ok_iff hc hoffset).mpr ⟨hadmits, hfits, rfl⟩,
        (ih hfits).mpr ⟨hadmitted, hall, rfl⟩⟩

end Payload

/-- A payload ends too early, or it counts more elements than an array can have. -/
def FrameError.Unreadable (e : FrameError) : Prop :=
  (∃ needed available, e = .payloadTooShort needed available) ∨
    ∃ channel most count, e = .arrayTooLong channel most count

namespace Payload

/-! ## Why a payload is refused -/

variable {e : FrameError} {c : Channel} {values : NamedValues} {r : BitReader}

theorem unreadable_tooShort (r : BitReader) (width : Nat) : (tooShort r width).Unreadable :=
  Or.inl ⟨_, _, rfl⟩

theorem unreadable_of_readRaw {width : Nat} (h : readRaw width r = .error e) : e.Unreadable := by
  unfold readRaw at h
  split at h
  · cases h
  · cases h
    exact unreadable_tooShort r width

theorem unreadable_of_skipBits {width : Nat} (h : skipBits width r = .error e) :
    e.Unreadable := by
  unfold skipBits at h
  split at h
  · cases h
  · cases h
    exact unreadable_tooShort r width

variable [HalfConversion]

theorem unreadable_of_readNamed {name : String} (h : readNamed c name values r = .error e) :
    e.Unreadable := by
  rcases bind_eq_error_iff.mp h with hraw | ⟨_, -, hlast⟩
  · exact unreadable_of_readRaw hraw
  · cases hlast

theorem unreadable_of_readElements {count index : Nat}
    (h : readElements c count index values r = .error e) : e.Unreadable := by
  induction count generalizing index values r with
  | zero => cases h
  | succ count ih =>
    rcases bind_eq_error_iff.mp h with hfirst | ⟨_, -, hrest⟩
    · exact unreadable_of_readNamed hfirst
    · exact ih hrest

theorem unreadable_of_readChannel (h : readChannel c values r = .error e) : e.Unreadable := by
  unfold readChannel at h
  split at h
  · rcases bind_eq_error_iff.mp h with hskip | ⟨_, -, hlast⟩
    · exact unreadable_of_skipBits hskip
    · cases hlast
  split at h
  · rcases bind_eq_error_iff.mp h with hcount | ⟨⟨count, behind⟩, -, hrest⟩
    · exact unreadable_of_readRaw hcount
    dsimp only at hrest
    split at hrest
    · cases hrest
      exact Or.inr ⟨_, _, _, rfl⟩
    · exact unreadable_of_readElements hrest
  · exact unreadable_of_readNamed h

theorem unreadable_of_readChannels {channels : List Channel}
    (h : readChannels channels values r = .error e) : e.Unreadable := by
  induction channels generalizing values r with
  | nil => cases h
  | cons c rest ih =>
    rcases bind_eq_error_iff.mp h with hfirst | ⟨_, -, hrest⟩
    · exact unreadable_of_readChannel hfirst
    · exact ih hrest

theorem unreadable_of_read {channels : List Channel} {payload : Bytes}
    (h : read channels payload = .error e) : e.Unreadable :=
  unreadable_of_readChannels (map_eq_error_iff.mp h)

end Payload

end BusSchema
