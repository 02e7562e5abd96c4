import BusSchema.Proofs.Payload.Walk

/-!
# Which bits of a payload matter

A parser looks at the counts and values that it reads, up to the first piece that it cannot read
(`Payload.LooksAt`), and at nothing else.  Where the values of a later channel stand depends on the
counts before them, so two payloads are followed side by side: as long as they agree on what was
looked at, they have the same pieces (`Payload.walk_congr`).  A longer payload that agrees with a
shorter one on these bits is parsed to the same values, or refused for the same array, and a payload
of the same size has the same result in any case (`Payload.parse_eq_of_looksAt`).
-/

namespace BusSchema

open Bits

namespace Bits

theorem gather_congr {bit other : Nat → Bool} {offset width : Nat}
    (h : ∀ i < width, other (offset + i) = bit (offset + i)) :
    gather other offset width = gather bit offset width := by
  apply Nat.eq_of_testBit_eq
  intro i
  rw [testBit_gather, testBit_gather]
  by_cases hi : i < width
  · rw [h i hi]
  · simp [hi]

end Bits

namespace Payload

/-- The pieces that are read: up to the first one that ends too late, or that is a count too large. -/
def reached (bytes : Bytes) : List Piece → List Piece
  | [] => []
  | piece :: rest =>
    if 8 * bytes.size < piece.stop then []
    else if piece.fault? bytes = none then piece :: reached bytes rest
    else [piece]

/-- The piece covers a bit. -/
def Piece.Covers (piece : Piece) (p : Nat) : Prop := piece.start ≤ p ∧ p < piece.stop

/-- A parser looks at the bit: it belongs to a count or a value that is read. -/
def LooksAt (bytes : Bytes) (channels : List Channel) (p : Nat) : Prop :=
  ∃ piece ∈ reached bytes (walk bytes channels 0), piece.role ≠ .padding ∧ piece.Covers p

/-- The second bytes have the bits of the first ones in a piece, unless it is padding. -/
def SameIn (bytes other : Bytes) (piece : Piece) : Prop :=
  piece.role ≠ .padding → ∀ p, piece.Covers p → bitAt other p = bitAt bytes p

section Pieces

variable {bytes other : Bytes} {pieces front back : List Piece} {piece : Piece}

theorem number_congr (h : SameIn bytes other piece) (hrole : piece.role ≠ .padding) :
    piece.number other = piece.number bytes := by
  refine gather_congr fun i hi => h hrole _ ⟨Nat.le_add_right _ _, ?_⟩
  exact Nat.add_lt_add_left hi _

theorem fault?_congr (hsize : bytes.size ≤ other.size) (hfits : piece.stop ≤ 8 * bytes.size)
    (h : SameIn bytes other piece) : piece.fault? other = piece.fault? bytes := by
  have hlonger : ¬8 * other.size < piece.stop := by omega
  unfold Piece.fault?
  rw [if_neg hlonger, if_neg (Nat.not_lt.mpr hfits)]
  by_cases hrole : piece.role = .count
  · rw [number_congr h (by simp [hrole])]
  · simp [hrole]

theorem mem_reached_cons (hfits : piece.stop ≤ 8 * bytes.size) :
    piece ∈ reached bytes (piece :: back) := by
  rw [reached, if_neg (Nat.not_lt.mpr hfits)]
  split <;> exact List.mem_cons_self

theorem reached_append_of_none (h : firstFault? bytes front = none) :
    reached bytes (front ++ back) = front ++ reached bytes back := by
  rw [firstFault?_eq_none_iff] at h
  induction front with
  | nil => rfl
  | cons piece rest ih =>
    obtain ⟨hpiece, hrest⟩ := List.forall_mem_cons.mp h
    rw [List.cons_append, reached, if_neg (Nat.not_lt.mpr hpiece.fits),
      if_pos (Piece.fault?_eq_none_iff.mpr hpiece), ih hrest, List.cons_append]

theorem reached_append_of_some {e : FrameError} (h : firstFault? bytes front = some e) :
    reached bytes (front ++ back) = reached bytes front := by
  induction front with
  | nil => cases h
  | cons piece rest ih =>
    rw [List.cons_append, reached, reached]
    split_ifs with hstop hfault
    · rfl
    · rw [firstFault?, List.findSome?_cons, hfault] at h
      rw [ih h]
    · rfl

theorem mem_reached_append (hpiece : piece ∈ reached bytes front) :
    piece ∈ reached bytes (front ++ back) := by
  cases hfront : firstFault? bytes front with
  | some e => rwa [reached_append_of_some hfront]
  | none =>
    have hall : reached bytes (front ++ []) = front ++ [] := reached_append_of_none hfront
    rw [List.append_nil] at hall
    rw [reached_append_of_none hfront]
    exact List.mem_append_left _ (hall ▸ hpiece)

/--
Pieces that are the same in both bytes as far as they are read have the same first fault, unless the
first bytes end too early and the other ones do not.
-/
theorem firstFault?_congr (hsize : bytes.size ≤ other.size)
    (hsame : ∀ piece ∈ reached bytes pieces, SameIn bytes other piece)
    (hshort : ∀ needed available,
      firstFault? bytes pieces = some (.payloadTooShort needed available) →
        other.size = bytes.size) :
    firstFault? other pieces = firstFault? bytes pieces := by
  induction pieces with
  | nil => rfl
  | cons piece rest ih =>
    unfold firstFault? at ih hshort ⊢
    rw [List.findSome?_cons] at hshort ⊢
    rw [List.findSome?_cons]
    by_cases hstop : 8 * bytes.size < piece.stop
    · have hfault : piece.fault? bytes =
          some (.payloadTooShort piece.stop (8 * bytes.size)) := if_pos hstop
      have hequal : other.size = bytes.size := by
        rw [hfault] at hshort
        exact hshort _ _ rfl
      have hother : piece.fault? other = piece.fault? bytes := by
        rw [hfault, ← hequal]
        exact if_pos (by rwa [hequal])
      rw [hother, hfault]
    · have hfits := Nat.le_of_not_lt hstop
      rw [fault?_congr hsize hfits (hsame piece (mem_reached_cons hfits))]
      cases hfault : piece.fault? bytes with
      | some e => rfl
      | none =>
        rw [hfault] at hshort
        refine ih (fun p hp => hsame p ?_) hshort
        rw [reached, if_neg hstop, if_pos hfault]
        exact List.mem_cons_of_mem _ hp

end Pieces

/-! ## Two payloads side by side -/

section Walks

variable {bytes other : Bytes} {c : Channel} {offset : Nat}

theorem elementsAt_congr [HalfConversion] {count : Nat}
    (h : ∀ piece ∈ c.elementPieces offset count, SameIn bytes other piece) :
    c.elementsAt other offset count = c.elementsAt bytes offset count := by
  induction count generalizing offset with
  | zero => simp [Channel.elementsAt]
  | succ count ih =>
    obtain ⟨hfirst, hrest⟩ := List.forall_mem_cons.mp h
    have hnumber : gather (bitAt other) offset c.width = gather (bitAt bytes) offset c.width :=
      number_congr hfirst (by simp)
    rw [Channel.elementsAt_succ, Channel.elementsAt_succ, hnumber, ih hrest]

theorem countAt_congr
    (h : c.isVoid = false → c.isDynamic = true →
      SameIn bytes other ⟨c, .count, offset, c.countWidth⟩) :
    c.countAt other offset = c.countAt bytes offset := by
  unfold Channel.countAt
  cases hvoid : c.isVoid with
  | true => rfl
  | false =>
    cases hdynamic : c.isDynamic with
    | false => rfl
    | true => exact number_congr (h hvoid hdynamic) (by simp)

theorem valuesAt_congr [HalfConversion] (hcount : c.countAt other offset = c.countAt bytes offset)
    (h : ∀ piece ∈ c.piecesAt bytes offset, SameIn bytes other piece) :
    c.valuesAt other offset = c.valuesAt bytes offset := by
  unfold Channel.valuesAt
  rw [hcount]
  apply elementsAt_congr
  unfold Channel.piecesAt at h
  cases hvoid : c.isVoid with
  | true =>
    have hnone : c.countAt bytes offset = 0 := by simp [Channel.countAt, hvoid]
    simp [hnone, Channel.elementPieces]
  | false =>
    cases hdynamic : c.isDynamic with
    | true =>
      simp only [hvoid, hdynamic, Bool.false_eq_true, if_false, if_true] at h
      exact (List.forall_mem_cons.mp h).2
    | false =>
      have hone : c.countAt bytes offset = 1 := by simp [Channel.countAt, hvoid, hdynamic]
      simp only [hvoid, hdynamic, Bool.false_eq_true, if_false] at h
      rw [hone, Channel.countWidth_eq_zero hdynamic]
      exact h

/-- A count that is not there is the first fault, whatever comes behind it. -/
theorem firstFault?_of_count (hvoid : c.isVoid = false) (hdynamic : c.isDynamic = true)
    (hshort : 8 * bytes.size < offset + c.countWidth) (channels : List Channel) :
    firstFault? bytes (walk bytes (c :: channels) offset) =
      some (.payloadTooShort (offset + c.countWidth) (8 * bytes.size)) := by
  rw [walk, Channel.piecesAt, if_neg (by simp [hvoid]), if_pos hdynamic, List.cons_append,
    firstFault?_cons_eq_some_iff]
  exact Or.inl (.short hshort)

/--
Bytes that agree on all counts and values that are read have the same first fault, unless the shorter
ones end too early; and if there is none, then they hold the same values.
-/
theorem walk_congr [HalfConversion] (hsize : bytes.size ≤ other.size) (channels : List Channel)
    (hsame : ∀ piece ∈ reached bytes (walk bytes channels offset), SameIn bytes other piece)
    (hshort : ∀ needed available,
      firstFault? bytes (walk bytes channels offset) = some (.payloadTooShort needed available) →
        other.size = bytes.size) :
    firstFault? other (walk other channels offset) =
        firstFault? bytes (walk bytes channels offset) ∧
      (firstFault? bytes (walk bytes channels offset) = none →
        Allotment.ofBytes other channels offset = Allotment.ofBytes bytes channels offset) := by
  induction channels generalizing offset with
  | nil => exact ⟨rfl, fun _ => rfl⟩
  | cons c rest ih =>
    by_cases hcut : c.isVoid = false ∧ c.isDynamic = true ∧ 8 * bytes.size < offset + c.countWidth
    · obtain ⟨hvoid, hdynamic, hcut⟩ := hcut
      have hfault := firstFault?_of_count hvoid hdynamic hcut rest
      have hequal := hshort _ _ hfault
      refine ⟨?_, fun hnone => ?_⟩
      · rw [hfault, ← hequal]
        exact firstFault?_of_count hvoid hdynamic (by rwa [hequal]) rest
      · rw [hfault] at hnone
        cases hnone
    · -- The count is read, so both bytes have the same pieces of this channel.
      have hcount : c.countAt other offset = c.countAt bytes offset := by
        refine countAt_congr fun hvoid hdynamic => hsame _ ?_
        rw [walk, Channel.piecesAt, if_neg (by simp [hvoid]), if_pos hdynamic, List.cons_append]
        exact mem_reached_cons (Nat.le_of_not_lt fun hlt => hcut ⟨hvoid, hdynamic, hlt⟩)
      have hpieces : c.piecesAt other offset = c.piecesAt bytes offset := by
        rw [Channel.piecesAt, Channel.piecesAt, hcount]
      rw [walk] at hsame hshort ⊢
      rw [walk, hpieces, hcount, firstFault?_append, firstFault?_append]
      rw [firstFault?_append] at hshort
      have hfirst : firstFault? other (c.piecesAt bytes offset) =
          firstFault? bytes (c.piecesAt bytes offset) := by
        refine firstFault?_congr hsize (fun piece hpiece => ?_) fun _ _ hfault => ?_
        · exact hsame piece (mem_reached_append hpiece)
        · exact hshort _ _ (Option.or_eq_some_iff.mpr (Or.inl hfault))
      rw [hfirst]
      cases hfault : firstFault? bytes (c.piecesAt bytes offset) with
      | some e => exact ⟨rfl, fun hnone => absurd hnone (Option.some_ne_none e)⟩
      | none =>
        rw [hfault] at hshort
        rw [reached_append_of_none hfault] at hsame
        obtain ⟨hsameFirst, hsameRest⟩ := List.forall_mem_append.mp hsame
        obtain ⟨hverdict, hvalues⟩ := ih hsameRest hshort
        refine ⟨hverdict, fun hnone => ?_⟩
        rw [Allotment.ofBytes, Allotment.ofBytes, valuesAt_congr hcount hsameFirst, hcount,
          hvalues hnone]

end Walks

theorem Piece.LaidFrom.le_start {offset : Nat} {pieces : List Piece}
    (h : Piece.LaidFrom offset pieces) {piece : Piece} (hpiece : piece ∈ pieces) :
    offset ≤ piece.start := by
  induction pieces generalizing offset with
  | nil => cases hpiece
  | cons first rest ih =>
    obtain ⟨rfl, hrest⟩ := h
    rcases List.mem_cons.mp hpiece with rfl | hmem
    · exact Nat.le_refl _
    · exact Nat.le_trans (Nat.le_add_right _ _) (ih hrest hmem)

/-- No bit belongs to two pieces. -/
theorem Piece.LaidFrom.eq_of_covers {offset p : Nat} {pieces : List Piece}
    (h : Piece.LaidFrom offset pieces) {x y : Piece} (hx : x ∈ pieces) (hy : y ∈ pieces)
    (hxp : x.Covers p) (hyp : y.Covers p) : x = y := by
  induction pieces generalizing offset with
  | nil => cases hx
  | cons first rest ih =>
    obtain ⟨-, hrest⟩ := h
    rcases List.mem_cons.mp hx with rfl | hxr <;> rcases List.mem_cons.mp hy with rfl | hyr
    · rfl
    · exact absurd (Nat.lt_of_lt_of_le hxp.2 (hrest.le_start hyr)) (Nat.not_lt.mpr hyp.1)
    · exact absurd (Nat.lt_of_lt_of_le hyp.2 (hrest.le_start hxr)) (Nat.not_lt.mpr hxp.1)
    · exact ih hrest hxr hyr

/-- What is read ends inside the bytes. -/
theorem mem_and_fits_of_mem_reached {bytes : Bytes} {pieces : List Piece} {piece : Piece}
    (h : piece ∈ reached bytes pieces) : piece ∈ pieces ∧ piece.stop ≤ 8 * bytes.size := by
  induction pieces with
  | nil => cases h
  | cons first rest ih =>
    rw [reached] at h
    split_ifs at h with hstop hfault
    · cases h
    · rcases List.mem_cons.mp h with rfl | hrest
      · exact ⟨List.mem_cons_self, Nat.le_of_not_lt hstop⟩
      · exact ⟨List.mem_cons_of_mem _ (ih hrest).1, (ih hrest).2⟩
    · rcases List.mem_singleton.mp h with rfl
      exact ⟨List.mem_cons_self, Nat.le_of_not_lt hstop⟩

/-! ## Payloads that agree -/

/-- The other payload is at least as long, and agrees on all bits that a parser looks at. -/
structure Matches (channels : List Channel) (bytes other : Bytes) : Prop where
  size : bytes.size ≤ other.size
  bits : ∀ p, LooksAt bytes channels p → bitAt other p = bitAt bytes p

/-- No parser looks at bytes behind a payload. -/
theorem matches_append (channels : List Channel) (bytes extra : Bytes) :
    Matches channels bytes (bytes ++ extra) := by
  constructor
  · rw [Array.size_append]
    exact Nat.le_add_right _ _
  · rintro p ⟨piece, hpiece, -, hcovers⟩
    have hfits := (mem_and_fits_of_mem_reached hpiece).2
    have hp := hcovers.2
    unfold bitAt
    rw [Array.getElem?_append_left (by omega)]

/-- No parser looks at padding. -/
theorem matches_of_padding {channels : List Channel} {bytes other : Bytes}
    (hsize : other.size = bytes.size)
    (hbits : ∀ p, (∀ piece ∈ walk bytes channels 0, piece.Covers p → piece.role ≠ .padding) →
      bitAt other p = bitAt bytes p) : Matches channels bytes other := by
  refine ⟨Nat.le_of_eq hsize.symm, ?_⟩
  rintro p ⟨piece, hpiece, hrole, hcovers⟩
  have hmem := (mem_and_fits_of_mem_reached hpiece).1
  refine hbits p fun x hx hxp => ?_
  rwa [(laidFrom_walk bytes channels 0).eq_of_covers hx hmem hxp hcovers]

section Parsing

variable [HalfConversion] {channels : List Channel} (hchannels : ∀ c ∈ channels, c.IsCodable)

include hchannels

theorem read_eq_of_matches {bytes other : Bytes} (h : Matches channels bytes other)
    (hshort : ∀ needed available,
      read channels bytes = .error (.payloadTooShort needed available) → other.size = bytes.size) :
    read channels other = read channels bytes := by
  have hsame : ∀ piece ∈ reached bytes (walk bytes channels 0), SameIn bytes other piece :=
    fun piece hpiece hrole p hp => h.bits p ⟨piece, hpiece, hrole, hp⟩
  obtain ⟨hfault, hvalues⟩ := walk_congr h.size channels hsame fun _ _ hfault =>
    hshort _ _ ((read_eq_error_iff hchannels).mpr hfault)
  cases hread : read channels bytes with
  | error e => rw [read_eq_error_iff hchannels, hfault, ← read_eq_error_iff hchannels, hread]
  | ok values =>
    have hnone := (exists_read_eq_ok_iff hchannels).mp ⟨values, hread⟩
    obtain ⟨otherValues, hother⟩ := (exists_read_eq_ok_iff hchannels).mpr (hfault.trans hnone)
    obtain ⟨next, hnext, rfl⟩ := map_eq_ok_iff.mp hread
    obtain ⟨otherNext, hotherNext, rfl⟩ := map_eq_ok_iff.mp hother
    obtain ⟨-, -, rfl⟩ := (readChannels_eq_ok_iff hchannels (Nat.zero_le _)).mp hnext
    obtain ⟨-, -, rfl⟩ := (readChannels_eq_ok_iff hchannels (Nat.zero_le _)).mp hotherNext
    rw [hother, hvalues hnone]

/--
A frame whose payload is at least as long and agrees on all bits that a parser looks at is parsed to
the same values, or is refused for the same array that is too long.  If it is not longer at all, then
it has the same result in any case.  In particular, a parser does not look at bytes that follow the
payload, nor at the padding between its values.
-/
theorem parse_eq_of_looksAt (f : Frame) :
    (∀ g : Frame, Matches channels f.payload g.payload →
      (∀ values, f.parse channels = .ok values → g.parse channels = .ok values) ∧
      (∀ name most count, f.parse channels = .error (.arrayTooLong name most count) →
        g.parse channels = .error (.arrayTooLong name most count)) ∧
      (g.payload.size = f.payload.size → g.parse channels = f.parse channels)) ∧
    (∀ extra, Matches channels f.payload (f.payload ++ extra)) ∧
    ∀ other : Bytes, other.size = f.payload.size →
      (∀ p, (∀ piece ∈ walk f.payload channels 0, piece.Covers p → piece.role ≠ .padding) →
        bitAt other p = bitAt f.payload p) →
      Matches channels f.payload other := by
  refine ⟨fun g hg => ⟨?_, ?_, ?_⟩, matches_append channels f.payload,
    fun _ => matches_of_padding⟩
  · intro values hvalues
    refine Eq.trans (read_eq_of_matches hchannels hg fun _ _ hshort => ?_) hvalues
    cases hvalues.symm.trans hshort
  · intro name most count hlong
    refine Eq.trans (read_eq_of_matches hchannels hg fun _ _ hshort => ?_) hlong
    cases hlong.symm.trans hshort
  · intro hsize
    exact read_eq_of_matches hchannels hg fun _ _ _ => hsize

end Parsing

open scoped HalfConversion in
/-- Padding between an array and a scalar is set, and bytes follow. -/
theorem parse_eq_of_looksAt_set_padding :
    let channels := [Channel.dynamicArray .unsigned 8 "a" 3, Channel.padding 5,
      Channel.scalar .signed 4 "b"]
    let f := { Frame.message 1 1 0 with payload := #[30, 36, 128, 6] }
    let g := { f with payload := #[30, 36, 252, 6] }
    (∀ c ∈ channels, c.IsCodable) ∧ Matches channels f.payload g.payload ∧
      ∃ values, f.parse channels = .ok values ∧ g.parse channels = .ok values ∧
        ({ g with payload := g.payload ++ #[1, 0xff] } : Frame).parse channels = .ok values := by
  intro channels f g
  have hcodable : ∀ c ∈ channels, c.IsCodable := by
    intro c hc
    simp only [channels, List.mem_cons, List.not_mem_nil, or_false] at hc
    rcases hc with rfl | rfl | rfl
    · exact Channel.isCodable_dynamicArray (by decide) (by decide) _ _
    · exact Channel.isCodable_padding 5
    · exact Channel.isCodable_scalar (by decide) _ _
  have hdiffer : ∀ p < 32, bitAt g.payload p ≠ bitAt f.payload p → 18 ≤ p ∧ p < 23 := by
    decide +kernel
  obtain ⟨hf, -, hpadding⟩ := parse_eq_of_looksAt hcodable f
  have hmatches : Matches channels f.payload g.payload := by
    refine hpadding g.payload rfl fun p hp => ?_
    by_contra hne
    rcases Nat.lt_or_ge p 32 with hlt | hge
    · have hmem : (⟨channels[1], .padding, 18, 5⟩ : Piece) ∈ walk f.payload channels 0 := by
        decide +kernel
      exact hp _ hmem (hdiffer p hlt hne) rfl
    · exact hne ((bitAt_eq_false hge).trans (bitAt_eq_false hge).symm)
  obtain ⟨values, hvalues⟩ : ∃ values, f.parse channels = .ok values := by
    refine (exists_read_eq_ok_iff hcodable).mpr ?_
    decide +kernel
  obtain ⟨hg, hextra, -⟩ := parse_eq_of_looksAt hcodable g
  have hsame := (hf g hmatches).1 values hvalues
  refine ⟨hcodable, hmatches, values, hvalues, hsame, ?_⟩
  exact (hg { g with payload := g.payload ++ #[1, 0xff] } (hextra _)).1 values hsame

end Payload

end BusSchema
