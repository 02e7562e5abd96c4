import BusSchema.Proofs.Payload.Reading

/-!
# Where a payload is refused

A parser takes a payload piece by piece: padding, the count of an array, a value.  Which pieces there
are depends on the counts that are found on the way, so `Payload.walk` lays out the pieces of given
bytes, from bit zero on and without gaps.  Reading then fails exactly if one of the pieces ends behind
the bytes or is a count that its array cannot have, and the error is that of the first such piece
(`Payload.parse_eq_error_iff`).
-/

namespace BusSchema

open Bits

namespace Payload

/-- What a piece of a payload is. -/
inductive PieceRole
  | padding
  /-- The number of elements of an array. -/
  | count
  /-- A scalar, or an element of an array. -/
  | value
deriving DecidableEq

/-- A piece of a payload, which a channel takes in one go. -/
structure Piece where
  channel : Channel
  role : PieceRole
  /-- The position of the first bit. -/
  start : Nat
  width : Nat
deriving DecidableEq

namespace Piece

/-- The position behind the last bit. -/
def stop (piece : Piece) : Nat := piece.start + piece.width

/-- The number that the bits of the piece are in the given bytes. -/
def number (bytes : Bytes) (piece : Piece) : Nat := gather (bitAt bytes) piece.start piece.width

/-- The piece ends inside the bytes, and a count is one that its array can have. -/
structure Readable (bytes : Bytes) (piece : Piece) : Prop where
  fits : piece.stop ≤ 8 * bytes.size
  counted : piece.role = .count → piece.number bytes ≤ piece.channel.maxCount

/-- Why a piece cannot be read. -/
inductive RefusedFor (bytes : Bytes) (piece : Piece) : FrameError → Prop
  | short (hstop : 8 * bytes.size < piece.stop) :
    RefusedFor bytes piece (.payloadTooShort piece.stop (8 * bytes.size))
  | long (hfits : piece.stop ≤ 8 * bytes.size) (hrole : piece.role = .count)
      (hmost : piece.channel.maxCount < piece.number bytes) :
    RefusedFor bytes piece
      (.arrayTooLong piece.channel.name piece.channel.maxCount (piece.number bytes))

/-- What is wrong with a piece, if anything is. -/
def fault? (bytes : Bytes) (piece : Piece) : Option FrameError :=
  if 8 * bytes.size < piece.stop then some (.payloadTooShort piece.stop (8 * bytes.size))
  else if piece.role = .count ∧ piece.channel.maxCount < piece.number bytes then
    some (.arrayTooLong piece.channel.name piece.channel.maxCount (piece.number bytes))
  else none

/-- The pieces lie one behind the other, the first one at the given position. -/
def LaidFrom : Nat → List Piece → Prop
  | _, [] => True
  | offset, piece :: rest => piece.start = offset ∧ LaidFrom piece.stop rest

variable {bytes : Bytes} {piece : Piece} {e : FrameError}

theorem fault?_eq_none_iff : piece.fault? bytes = none ↔ piece.Readable bytes := by
  unfold fault?
  constructor
  · intro h
    split at h
    · cases h
    · next hstop =>
      split at h
      · cases h
      · next hmost =>
        exact ⟨Nat.le_of_not_lt hstop, fun hrole => Nat.le_of_not_lt fun hlt => hmost ⟨hrole, hlt⟩⟩
  · rintro ⟨hfits, hcounted⟩
    rw [if_neg (Nat.not_lt.mpr hfits), if_neg]
    rintro ⟨hrole, hmost⟩
    exact Nat.not_lt.mpr (hcounted hrole) hmost

instance (bytes : Bytes) (piece : Piece) : Decidable (piece.Readable bytes) :=
  decidable_of_iff _ fault?_eq_none_iff

theorem fault?_eq_some_iff : piece.fault? bytes = some e ↔ piece.RefusedFor bytes e := by
  unfold fault?
  constructor
  · intro h
    split at h
    · next hstop =>
      cases h
      exact .short hstop
    · next hstop =>
      split at h
      · next hmost =>
        cases h
        exact .long (Nat.le_of_not_lt hstop) hmost.1 hmost.2
      · cases h
  · rintro (⟨hstop⟩ | ⟨hfits, hrole, hmost⟩)
    · rw [if_pos hstop]
    · rw [if_neg (Nat.not_lt.mpr hfits), if_pos ⟨hrole, hmost⟩]

/-- A piece that is no count can only end too late. -/
theorem refusedFor_iff_of_ne_count (hrole : piece.role ≠ .count) :
    piece.RefusedFor bytes e ↔
      8 * bytes.size < piece.stop ∧ e = .payloadTooShort piece.stop (8 * bytes.size) := by
  constructor
  · rintro (⟨hstop⟩ | ⟨-, hcount, -⟩)
    · exact ⟨hstop, rfl⟩
    · exact absurd hcount hrole
  · rintro ⟨hstop, rfl⟩
    exact .short hstop

end Piece

end Payload

namespace Channel

open Payload

/-- The pieces of so many elements of an array. -/
def elementPieces (c : Channel) : Nat → Nat → List Piece
  | _, 0 => []
  | offset, count + 1 =>
    ⟨c, .value, offset, c.width⟩ :: elementPieces c (offset + c.width) count

/-- The pieces that the channel takes of the bytes from a position on. -/
def piecesAt (c : Channel) (bytes : Bytes) (offset : Nat) : List Piece :=
  if c.isVoid then [⟨c, .padding, offset, c.width⟩]
  else if c.isDynamic then
    ⟨c, .count, offset, c.countWidth⟩ ::
      c.elementPieces (offset + c.countWidth) (c.countAt bytes offset)
  else [⟨c, .value, offset, c.width⟩]

end Channel

namespace Payload

/-- The pieces that the channels take of the bytes, one channel after the other. -/
def walk (bytes : Bytes) : List Channel → Nat → List Piece
  | [], _ => []
  | c :: rest, offset =>
    c.piecesAt bytes offset ++ walk bytes rest (offset + c.bitsOf (c.countAt bytes offset))

/-- What is wrong with the first piece that cannot be read. -/
def firstFault? (bytes : Bytes) (pieces : List Piece) : Option FrameError :=
  pieces.findSome? (Piece.fault? bytes)

/-! ## Pieces without gaps -/

theorem laidFrom_append {front back : List Piece} {offset stop : Nat}
    (hfront : Piece.LaidFrom offset front)
    (hstop : offset + total (front.map Piece.width) = stop) (hback : Piece.LaidFrom stop back) :
    Piece.LaidFrom offset (front ++ back) := by
  induction front generalizing offset with
  | nil =>
    have hsame : offset = stop := hstop
    rwa [hsame]
  | cons piece rest ih =>
    obtain ⟨hstart, hrest⟩ := hfront
    refine ⟨hstart, ih hrest ?_⟩
    have htotal : total ((piece :: rest).map Piece.width) =
        piece.width + total (rest.map Piece.width) := rfl
    rw [← hstop, htotal, Piece.stop, hstart, Nat.add_assoc]

theorem laidFrom_elementPieces (c : Channel) (offset count : Nat) :
    Piece.LaidFrom offset (c.elementPieces offset count) := by
  induction count generalizing offset with
  | zero => trivial
  | succ count ih => exact ⟨rfl, ih (offset + c.width)⟩

theorem total_elementPieces (c : Channel) (offset count : Nat) :
    total ((c.elementPieces offset count).map Piece.width) = count * c.width := by
  induction count generalizing offset with
  | zero => simp [Channel.elementPieces, total]
  | succ count ih =>
    have htotal : total ((c.elementPieces offset (count + 1)).map Piece.width) =
        c.width + total ((c.elementPieces (offset + c.width) count).map Piece.width) := rfl
    rw [htotal, ih, Nat.succ_mul, Nat.add_comm]

theorem laidFrom_piecesAt (c : Channel) (bytes : Bytes) (offset : Nat) :
    Piece.LaidFrom offset (c.piecesAt bytes offset) := by
  unfold Channel.piecesAt
  split
  · exact ⟨rfl, trivial⟩
  · split
    · exact ⟨rfl, laidFrom_elementPieces c _ _⟩
    · exact ⟨rfl, trivial⟩

/-- The pieces of a channel are as wide as the channel is with its values. -/
theorem total_piecesAt (c : Channel) (bytes : Bytes) (offset : Nat) :
    total ((c.piecesAt bytes offset).map Piece.width) = c.bitsOf (c.countAt bytes offset) := by
  unfold Channel.piecesAt Channel.bitsOf
  cases hvoid : c.isVoid with
  | true => rfl
  | false =>
    cases hdynamic : c.isDynamic with
    | true => exact congrArg (c.countWidth + ·) (total_elementPieces c _ _)
    | false =>
      simp [Channel.countAt, hvoid, hdynamic, Channel.countWidth_eq_zero hdynamic, total]

theorem laidFrom_walk (bytes : Bytes) (channels : List Channel) (offset : Nat) :
    Piece.LaidFrom offset (walk bytes channels offset) := by
  induction channels generalizing offset with
  | nil => trivial
  | cons c rest ih =>
    refine laidFrom_append (laidFrom_piecesAt c bytes offset) ?_ (ih _)
    rw [total_piecesAt]

/-! ## The first fault -/

section FirstFault

variable {bytes : Bytes} {pieces front back : List Piece} {e : FrameError}

theorem firstFault?_eq_none_iff :
    firstFault? bytes pieces = none ↔ ∀ piece ∈ pieces, piece.Readable bytes := by
  simp only [firstFault?, List.findSome?_eq_none_iff, Piece.fault?_eq_none_iff]

theorem firstFault?_eq_some_iff :
    firstFault? bytes pieces = some e ↔
      ∃ front piece back, pieces = front ++ piece :: back ∧ (∀ p ∈ front, p.Readable bytes) ∧
        piece.RefusedFor bytes e := by
  simp only [firstFault?, List.findSome?_eq_some_iff, Piece.fault?_eq_none_iff,
    Piece.fault?_eq_some_iff]
  constructor
  · rintro ⟨front, piece, back, hpieces, hpiece, hfront⟩
    exact ⟨front, piece, back, hpieces, hfront, hpiece⟩
  · rintro ⟨front, piece, back, hpieces, hfront, hpiece⟩
    exact ⟨front, piece, back, hpieces, hpiece, hfront⟩

theorem firstFault?_append :
    firstFault? bytes (front ++ back) =
      (firstFault? bytes front).or (firstFault? bytes back) :=
  List.findSome?_append

theorem firstFault?_cons_eq_some_iff {piece : Piece} :
    firstFault? bytes (piece :: back) = some e ↔
      piece.RefusedFor bytes e ∨ piece.Readable bytes ∧ firstFault? bytes back = some e := by
  unfold firstFault?
  rw [List.findSome?_cons, ← Piece.fault?_eq_some_iff, ← Piece.fault?_eq_none_iff]
  cases piece.fault? bytes <;> simp

theorem firstFault?_singleton_eq_some_iff {piece : Piece} :
    firstFault? bytes [piece] = some e ↔ piece.RefusedFor bytes e := by
  rw [firstFault?_cons_eq_some_iff]
  simp [firstFault?]

end FirstFault

/-! ## Readers refuse what the walk refuses -/

section Readers

variable {r : BitReader} {c : Channel} {values : NamedValues} {e : FrameError}

theorem tooShort_eq (hr : r.offset ≤ 8 * r.bytes.size) (width : Nat) :
    tooShort r width = .payloadTooShort (r.offset + width) (8 * r.bytes.size) := by
  unfold tooShort BitReader.remaining
  rw [Nat.add_sub_cancel' hr]

theorem readRaw_eq_error_iff (hr : r.offset ≤ 8 * r.bytes.size) {width : Nat}
    (hwidth : width ≤ maxValueWidth) :
    readRaw width r = .error e ↔
      8 * r.bytes.size < r.offset + width ∧
        e = .payloadTooShort (r.offset + width) (8 * r.bytes.size) := by
  unfold readRaw BitReader.read?
  rw [read?_eq, tooShort_eq hr]
  by_cases hfits : r.offset + width ≤ 8 * r.bytes.size
  · simp [hwidth, hfits, Nat.not_lt.mpr hfits]
  · simp [hfits, Nat.lt_of_not_le hfits, eq_comm]

theorem skipBits_eq_error_iff (hr : r.offset ≤ 8 * r.bytes.size) {width : Nat} :
    skipBits width r = .error e ↔
      8 * r.bytes.size < r.offset + width ∧
        e = .payloadTooShort (r.offset + width) (8 * r.bytes.size) := by
  have hfits : r.remaining < width ↔ 8 * r.bytes.size < r.offset + width := by
    unfold BitReader.remaining
    omega
  unfold skipBits BitReader.skip?
  rw [tooShort_eq hr]
  simp only [hfits]
  by_cases hshort : 8 * r.bytes.size < r.offset + width
  · simp [hshort, eq_comm]
  · simp [hshort]

variable [HalfConversion]

theorem readNamed_eq_error_iff (hr : r.offset ≤ 8 * r.bytes.size)
    (hwidth : c.width ≤ maxValueWidth) {name : String} :
    readNamed c name values r = .error e ↔
      Piece.RefusedFor r.bytes ⟨c, .value, r.offset, c.width⟩ e := by
  rw [Piece.refusedFor_iff_of_ne_count (by simp), readNamed, bind_eq_error_iff,
    readRaw_eq_error_iff hr hwidth]
  constructor
  · rintro (hraw | ⟨_, -, hlast⟩)
    · exact hraw
    · cases hlast
  · exact Or.inl

theorem readElements_eq_error_iff (hr : r.offset ≤ 8 * r.bytes.size)
    (hwidth : c.width ≤ maxValueWidth) {count index : Nat} :
    readElements c count index values r = .error e ↔
      firstFault? r.bytes (c.elementPieces r.offset count) = some e := by
  induction count generalizing index values r with
  | zero => simp [readElements, Channel.elementPieces, firstFault?]
  | succ count ih =>
    rw [readElements, bind_eq_error_iff, readNamed_eq_error_iff hr hwidth, Channel.elementPieces,
      firstFault?_cons_eq_some_iff]
    refine or_congr Iff.rfl ⟨?_, ?_⟩
    · rintro ⟨next, hfirst, hrest⟩
      obtain ⟨hfits, rfl⟩ := (readNamed_eq_ok_iff hwidth).mp hfirst
      exact ⟨⟨hfits, fun hrole => PieceRole.noConfusion hrole⟩, (ih hfits).mp hrest⟩
    · rintro ⟨⟨hfits, -⟩, hrest⟩
      exact ⟨_, (readNamed_eq_ok_iff hwidth).mpr ⟨hfits, rfl⟩, (ih hfits).mpr hrest⟩

/-- An array fails for its count if that is not there or too large, and else for an element. -/
theorem readChannel_eq_error_iff_of_isDynamic (hc : c.IsCodable) (hvoid : c.isVoid = false)
    (hdynamic : c.isDynamic = true) {bytes : Bytes} {offset : Nat}
    (hoffset : offset ≤ 8 * bytes.size) :
    readChannel c values ⟨bytes, offset⟩ = .error e ↔
      firstFault? bytes (c.piecesAt bytes offset) = some e := by
  have hwidth := hc.width hvoid
  have hcountAt : c.countAt bytes offset = gather (bitAt bytes) offset c.countWidth := by
    simp [Channel.countAt, hvoid, hdynamic]
  rw [Channel.piecesAt, if_neg (by simp [hvoid]), if_pos hdynamic,
    readChannel_of_isDynamic hvoid hdynamic, bind_eq_error_iff,
    readRaw_eq_error_iff hoffset hc.countWidth_le, firstFault?_cons_eq_some_iff, hcountAt]
  constructor
  · rintro (⟨hshort, rfl⟩ | ⟨next, hcount, hrest⟩)
    · exact Or.inl (.short hshort)
    · obtain ⟨-, hfits, rfl⟩ := readRaw_eq_ok_iff.mp hcount
      split at hrest
      · next hmost =>
        cases hrest
        exact Or.inl (.long hfits rfl hmost)
      · next hmost =>
        refine Or.inr ⟨⟨hfits, fun _ => Nat.le_of_not_lt hmost⟩, ?_⟩
        exact (readElements_eq_error_iff hfits hwidth).mp hrest
  · rintro (hcount | ⟨⟨hfits, hcounted⟩, hrest⟩)
    · cases hcount with
      | short hshort => exact Or.inl ⟨hshort, rfl⟩
      | long hfits _ hmost =>
        refine Or.inr ⟨_, readRaw_eq_ok_iff.mpr ⟨hc.countWidth_le, hfits, rfl⟩, ?_⟩
        exact if_pos hmost
    · refine Or.inr ⟨_, readRaw_eq_ok_iff.mpr ⟨hc.countWidth_le, hfits, rfl⟩, ?_⟩
      exact (if_neg (Nat.not_lt.mpr (hcounted rfl))).trans
        ((readElements_eq_error_iff hfits hwidth).mpr hrest)

/-- Reading one channel fails for the first of its pieces that cannot be read. -/
theorem readChannel_eq_error_iff (hc : c.IsCodable) {bytes : Bytes} {offset : Nat}
    (hoffset : offset ≤ 8 * bytes.size) :
    readChannel c values ⟨bytes, offset⟩ = .error e ↔
      firstFault? bytes (c.piecesAt bytes offset) = some e := by
  cases hvoid : c.isVoid with
  | true =>
    rw [Channel.piecesAt, if_pos hvoid, firstFault?_singleton_eq_some_iff,
      Piece.refusedFor_iff_of_ne_count (by simp)]
    simp only [readChannel, hvoid, if_true]
    rw [bind_eq_error_iff, skipBits_eq_error_iff hoffset]
    constructor
    · rintro (hskip | ⟨_, -, hlast⟩)
      · exact hskip
      · cases hlast
    · exact Or.inl
  | false =>
    cases hdynamic : c.isDynamic with
    | false =>
      rw [Channel.piecesAt, if_neg (by simp [hvoid]), if_neg (by simp [hdynamic]),
        firstFault?_singleton_eq_some_iff]
      simp only [readChannel, hvoid, hdynamic, Bool.false_eq_true, if_false]
      exact readNamed_eq_error_iff hoffset (hc.width hvoid)
    | true => exact readChannel_eq_error_iff_of_isDynamic hc hvoid hdynamic hoffset

/-- Reading channels fails for the first of all pieces that cannot be read. -/
theorem readChannels_eq_error_iff {channels : List Channel}
    (hchannels : ∀ c ∈ channels, c.IsCodable) {bytes : Bytes} {offset : Nat}
    (hoffset : offset ≤ 8 * bytes.size) :
    readChannels channels values ⟨bytes, offset⟩ = .error e ↔
      firstFault? bytes (walk bytes channels offset) = some e := by
  induction channels generalizing offset values with
  | nil => simp [readChannels, walk, firstFault?]
  | cons c rest ih =>
    obtain ⟨hc, hrest⟩ := List.forall_mem_cons.mp hchannels
    rw [readChannels, bind_eq_error_iff, walk, firstFault?_append, Option.or_eq_some_iff,
      readChannel_eq_error_iff hc hoffset]
    refine or_congr Iff.rfl ⟨?_, ?_⟩
    · rintro ⟨next, hfirst, hbehind⟩
      have hnone : firstFault? bytes (c.piecesAt bytes offset) = none := by
        refine Option.eq_none_iff_forall_ne_some.mpr fun fault hfault => ?_
        rw [(readChannel_eq_error_iff hc hoffset).mpr hfault] at hfirst
        cases hfirst
      obtain ⟨-, hfits, rfl⟩ := (readChannel_eq_ok_iff hc hoffset).mp hfirst
      exact ⟨hnone, (ih hrest hfits).mp hbehind⟩
    · rintro ⟨hnone, hbehind⟩
      cases hfirst : readChannel c values ⟨bytes, offset⟩ with
      | error fault =>
        rw [(readChannel_eq_error_iff hc hoffset).mp hfirst] at hnone
        cases hnone
      | ok next =>
        obtain ⟨-, hfits, rfl⟩ := (readChannel_eq_ok_iff hc hoffset).mp hfirst
        exact ⟨_, rfl, (ih hrest hfits).mpr hbehind⟩

end Readers

section Parsing

variable [HalfConversion] {channels : List Channel} (hchannels : ∀ c ∈ channels, c.IsCodable)

include hchannels

theorem read_eq_error_iff {payload : Bytes} {e : FrameError} :
    read channels payload = .error e ↔ firstFault? payload (walk payload channels 0) = some e := by
  rw [read, map_eq_error_iff, readChannels_eq_error_iff hchannels (Nat.zero_le _)]

theorem exists_read_eq_ok_iff {payload : Bytes} :
    (∃ values, read channels payload = .ok values) ↔
      firstFault? payload (walk payload channels 0) = none := by
  rw [Option.eq_none_iff_forall_ne_some]
  constructor
  · rintro ⟨values, hread⟩ e hfault
    rw [(read_eq_error_iff hchannels).mpr hfault] at hread
    cases hread
  · intro hnone
    cases hread : read channels payload with
    | ok values => exact ⟨values, rfl⟩
    | error e => exact absurd ((read_eq_error_iff hchannels).mp hread) (hnone e)

/--
The pieces of a payload lie one behind the other from its first bit on.  A frame is parsed exactly if
all of them end inside the payload and every count is one that its array can have.  Otherwise the
error is that of the first piece of which this is not true: either an array that is too long, or a
payload that is too short, and then the piece needs more bits than there are.
-/
theorem parse_eq_error_iff (f : Frame) :
    let pieces := walk f.payload channels 0
    Piece.LaidFrom 0 pieces ∧
      ((∃ values, f.parse channels = .ok values) ↔
        ∀ piece ∈ pieces, piece.Readable f.payload) ∧
      (∀ e, f.parse channels = .error e ↔
        ∃ front piece back, pieces = front ++ piece :: back ∧
          (∀ p ∈ front, p.Readable f.payload) ∧ piece.RefusedFor f.payload e) ∧
      ∀ needed available, f.parse channels = .error (.payloadTooShort needed available) →
        available = 8 * f.payload.size ∧ available < needed := by
  intro pieces
  have herror : ∀ e, f.parse channels = .error e ↔
      ∃ front piece back, pieces = front ++ piece :: back ∧
        (∀ p ∈ front, p.Readable f.payload) ∧ piece.RefusedFor f.payload e := by
    intro e
    rw [Frame.parse, read_eq_error_iff hchannels, firstFault?_eq_some_iff]
  refine ⟨laidFrom_walk f.payload channels 0, ?_, herror, ?_⟩
  · rw [← firstFault?_eq_none_iff]
    exact exists_read_eq_ok_iff hchannels
  · intro needed available hshort
    obtain ⟨-, piece, -, -, -, hrefused⟩ := (herror _).mp hshort
    cases hrefused with
    | short hstop => exact ⟨rfl, hstop⟩

end Parsing

open scoped HalfConversion in
/-- An array whose count is read inside the payload, and an element that is not. -/
theorem parse_eq_error_iff_cut_element :
    let channels := [Channel.padding 3, Channel.dynamicArray .unsigned 7 "a" 5,
      Channel.scalar .signed 4 "b"]
    let f := { Frame.message 1 1 0 with payload := #[0x1f, 0xff] }
    (∀ c ∈ channels, c.IsCodable) ∧
      f.parse channels = .error (.payloadTooShort 20 16) := by
  intro channels f
  have hcodable : ∀ c ∈ channels, c.IsCodable := by
    intro c hc
    simp only [channels, List.mem_cons, List.not_mem_nil, or_false] at hc
    rcases hc with rfl | rfl | rfl
    · exact Channel.isCodable_padding 3
    · exact Channel.isCodable_dynamicArray (by decide) (by decide) _ _
    · exact Channel.isCodable_scalar (by decide) _ _
  obtain ⟨-, -, herror, -⟩ := parse_eq_error_iff hcodable f
  let pieces := walk f.payload channels 0
  refine ⟨hcodable, (herror _).mpr ⟨pieces.take 3, ⟨channels[1], .value, 13, 7⟩, pieces.drop 4,
    by decide +kernel, by decide +kernel, .short (by decide)⟩⟩

end Payload

end BusSchema
