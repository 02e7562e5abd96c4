import BusSchema.Proofs.Layout.Capacity
import BusSchema.Proofs.Transfer.Addressing
import BusSchema.Proofs.Transfer.Delivery
import Mathlib.Data.List.Induction

/-!
# From values to values over the bus

The payload of a frame, with some bytes behind it, is cut into chunks anywhere and sent in as many
parts.  However the parts are mixed with what others send, the slot of the transfer holds just the
parts so far (`slot?_of_traffic`), and the last part completes it (`deliver_own_last`).  The main
statement is `receive_of_serialize`: the receiver then reads the values that were serialised.
-/

namespace BusSchema

namespace FrameRole

/-- The role that the flags of one of several parts stand for. -/
def ofPart (index count : Nat) : Except FrameError FrameRole :=
  classify (index = 0) (index + 1 = count) (index % 2 = 0)

theorem ofPart_single : ofPart 0 1 = .ok .single := rfl

theorem ofPart_start {count : Nat} (hcount : 1 ≠ count) : ofPart 0 count = .ok .start := by
  simp [ofPart, hcount, classify]

theorem ofPart_middle {index count : Nat} (hindex : index ≠ 0) (hcount : index + 1 ≠ count) :
    ofPart index count = .ok .middle := by
  simp [ofPart, hindex, hcount, classify]

theorem ofPart_last {index : Nat} (hindex : index ≠ 0) :
    ofPart index (index + 1) = .ok .last := by
  simp [ofPart, hindex, classify]

end FrameRole

namespace Frame

/-- One of several parts of a frame, with a chunk of its payload. -/
def part (f : Frame) (index count : Nat) (chunk : Bytes) : Frame :=
  { f with
    payload := chunk
    isStart := index = 0
    isEnd := index + 1 = count
    toggle := index % 2 = 0 }

/-- The parts of a frame so far, joined by its receiver. -/
def gathered (f : Frame) (timestamp : Int) (payload : Bytes) (toggle isStart : Bool)
    (role : FrameRole) : Frame :=
  { f.received role timestamp with
    payload
    toggle
    isStart
    isEnd := false
    completed := role = .last }

theorem Addressable.part {f : Frame} (hf : f.Addressable) (index count : Nat) (chunk : Bytes) :
    (f.part index count chunk).Addressable :=
  ⟨hf.subject, hf.source, hf.destination, hf.priority, hf.transfer⟩

theorem join_gathered (f : Frame) (timestamp later : Int) (payload chunk : Bytes)
    (toggle isStart : Bool) (role next : FrameRole) (index count : Nat) :
    (f.gathered timestamp payload toggle isStart role).join
        ((f.part index count chunk).received next later) =
      f.gathered timestamp (payload ++ chunk) (decide (index % 2 = 0)) false next := rfl

end Frame

namespace Slot

variable {f : Frame} {limit index : Nat} {timestamp later : Int} {payload chunk : Bytes}
  {isStart : Bool} {role : FrameRole}

theorem toggle_gathered_ne (index : Nat) :
    decide (index % 2 = 0) ≠ decide ((index + 1) % 2 = 0) := by
  intro h
  rw [decide_eq_decide] at h
  omega

theorem advance_gathered (count : Nat) (hsize : (payload ++ chunk).size ≤ limit) :
    advance limit (some (f.gathered timestamp payload (decide (index % 2 = 0)) isStart role))
        ((f.part (index + 1) count chunk).received .middle later) =
      some (f.gathered timestamp (payload ++ chunk) (decide ((index + 1) % 2 = 0)) false
        .middle) := by
  rw [advance_some _ _ (by simp [Frame.received]), Frame.join_gathered, if_neg]
  simp only [not_or, Nat.not_lt]
  exact ⟨toggle_gathered_ne index, hsize, by simp [Frame.received]⟩

theorem emit_gathered (count : Nat) (hsize : (payload ++ chunk).size ≤ limit) :
    emit limit (some (f.gathered timestamp payload (decide (index % 2 = 0)) isStart role))
        ((f.part (index + 1) count chunk).received .last later) =
      some (f.gathered timestamp (payload ++ chunk) (decide ((index + 1) % 2 = 0)) false
        .last) := by
  rw [emit_of_last rfl (toggle_gathered_ne index) hsize, Frame.join_gathered]

end Slot

theorem Catalogue.layoutOf?_received (catalogue : Catalogue) (f : Frame) (role : FrameRole)
    (timestamp : Int) :
    catalogue.layoutOf? (f.received role timestamp) = catalogue.layoutOf? f := by
  unfold layoutOf? Frame.received
  cases f.isService with
  | true => simp
  | false => rfl

namespace Receiver

/-- What comes in before a part of a transfer, and the part itself. -/
structure Round where
  foreign : List Delivery
  chunk : Bytes
  timestamp : Int

/-- The part of a frame that comes in at the end of a round. -/
def Round.own (round : Round) (f : Frame) (index count : Nat) : Delivery :=
  ⟨f.identifier, (f.part index count round.chunk).wireBytes, round.timestamp⟩

/-- All that comes in during the first rounds of a transfer of so many parts. -/
def traffic (f : Frame) (count : Nat) (rounds : List Round) : List Delivery :=
  (rounds.mapIdx fun index round => round.foreign ++ [round.own f index count]).flatten

/-- The chunks, one after the other. -/
def joinedChunks (rounds : List Round) : Bytes :=
  rounds.foldl (fun bytes round => bytes ++ round.chunk) #[]

theorem traffic_concat (f : Frame) (count : Nat) (rounds : List Round) (round : Round) :
    traffic f count (rounds ++ [round]) =
      traffic f count rounds ++ round.foreign ++ [round.own f rounds.length count] := by
  simp [traffic, List.mapIdx_concat]

theorem joinedChunks_concat (rounds : List Round) (round : Round) :
    joinedChunks (rounds ++ [round]) = joinedChunks rounds ++ round.chunk := by
  rw [joinedChunks, List.foldl_append]
  rfl

theorem size_joinedChunks_le (rounds behind : List Round) :
    (joinedChunks rounds).size ≤ (joinedChunks (rounds ++ behind)).size := by
  induction behind using List.reverseRecOn with
  | nil => simp
  | append_singleton behind round ih =>
    rw [← List.append_assoc, joinedChunks_concat, Array.size_append]
    omega

/-! ## The parts and the slot of their transfer -/

theorem decode_own {f : Frame} (hf : f.Addressable) (round : Round) (index count : Nat) :
    Frame.decode (round.own f index count).identifier (round.own f index count).bytes
        (round.own f index count).timestamp =
      (FrameRole.ofPart index count).map fun role =>
        (f.part index count round.chunk).received role round.timestamp :=
  Frame.decode_wireBytes (hf.part index count round.chunk) round.timestamp

theorem result_store_own {r : Receiver} {catalogue : Catalogue} (hr : r.Serves catalogue)
    (f : Frame) (round : Round) (index count : Nat) (role : FrameRole) (hsingle : role ≠ .single) :
    (r.reassembly.store ((f.part index count round.chunk).received role round.timestamp)).result =
      .ok (Slot.emit catalogue.transferLimit (r.reassembly.slot? f.key)
        ((f.part index count round.chunk).received role round.timestamp)) := by
  rw [← hr.limit]
  exact Reassembly.result_store hr.sound hsingle

section Conversion

variable [HalfConversion]

/-- The role of a part is given by its position. -/
theorem deliver_own_eq {f : Frame} (hf : f.Addressable) (r : Receiver) (round : Round)
    {index count : Nat} {role : FrameRole}
    (hrole : FrameRole.ofPart index count = .ok role) :
    r.deliver (round.own f index count) =
      r.accept ((f.part index count round.chunk).received role round.timestamp) := by
  apply deliver_of_ok
  rw [decode_own hf, hrole]
  rfl

theorem slot?_deliver_own {r : Receiver} {catalogue : Catalogue} (hr : r.Serves catalogue)
    {f : Frame} (hf : f.Addressable) {round : Round} {index count : Nat} {role : FrameRole}
    (hrole : FrameRole.ofPart index count = .ok role) (hsingle : role ≠ .single) :
    (r.deliver (round.own f index count)).state.reassembly.slot? f.key =
      Slot.advance catalogue.transferLimit (r.reassembly.slot? f.key)
        ((f.part index count round.chunk).received role round.timestamp) := by
  have hpart : ¬(role = .single ∨ f.key ≠ f.key) := by simp [hsingle]
  rw [deliver_own_eq hf r round hrole, (state_accept r _).2, Reassembly.slot?_store hr.sound,
    ← hr.limit]
  exact if_neg hpart

theorem slot?_deliver_start {r : Receiver} {catalogue : Catalogue} (hr : r.Serves catalogue)
    {f : Frame} (hf : f.Addressable) {round : Round} {count : Nat} (hcount : 1 < count)
    (hsize : round.chunk.size ≤ catalogue.transferLimit) :
    (r.deliver (round.own f 0 count)).state.reassembly.slot? f.key =
      some (f.gathered round.timestamp round.chunk true true .start) := by
  have hseveral : 1 ≠ count := Nat.ne_of_lt hcount
  have hfits : ¬catalogue.transferLimit <
      ((f.part 0 count round.chunk).received .start round.timestamp).payload.size :=
    Nat.not_lt.mpr hsize
  rw [slot?_deliver_own hr hf (FrameRole.ofPart_start hseveral) (by simp),
    Slot.advance_of_start _ _ rfl, if_neg hfits]
  simp [Frame.gathered, Frame.part, Frame.received, hseveral]

section Continues

variable {r : Receiver} {catalogue : Catalogue} (hr : r.Serves catalogue) {f : Frame}
  (hf : f.Addressable) {round : Round} {index : Nat} {timestamp : Int} {payload : Bytes}
  {isStart : Bool} {role : FrameRole}
  (hslot : r.reassembly.slot? f.key =
    some (f.gathered timestamp payload (decide (index % 2 = 0)) isStart role))
  (hsize : (payload ++ round.chunk).size ≤ catalogue.transferLimit)

include hr hf hslot hsize

theorem slot?_deliver_middle {count : Nat} (hcount : index + 1 + 1 < count) :
    (r.deliver (round.own f (index + 1) count)).state.reassembly.slot? f.key =
      some (f.gathered timestamp (payload ++ round.chunk) (decide ((index + 1) % 2 = 0)) false
        .middle) := by
  have hmiddle := FrameRole.ofPart_middle (Nat.succ_ne_zero index) (Nat.ne_of_lt hcount)
  rw [slot?_deliver_own hr hf hmiddle (by simp), hslot]
  exact Slot.advance_gathered count hsize

theorem deliver_end {layout : NamedLayout} (hlayout : catalogue.layoutOf? f = some layout) :
    (r.deliver (round.own f (index + 1) (index + 1 + 1))).result =
      (Payload.read layout.channels (payload ++ round.chunk)).map fun values =>
        some (transferOf (f.received .single timestamp) layout.name values) := by
  have hstore := result_store_own hr f round (index + 1) (index + 1 + 1) .last (by simp)
  rw [hslot, Slot.emit_gathered _ hsize] at hstore
  have hknown : r.catalogue.layoutOf? (f.gathered timestamp (payload ++ round.chunk)
      (decide ((index + 1) % 2 = 0)) false .last) = some layout := by
    rw [hr.knows, ← hlayout]
    exact Catalogue.layoutOf?_received catalogue f .last timestamp
  rw [deliver_own_eq hf _ round (FrameRole.ofPart_last (Nat.succ_ne_zero index)),
    accept_of_some hstore hknown]
  rfl

end Continues

/-- A single part is a transfer of its own and never gets into a slot. -/
theorem deliver_single {r : Receiver} {catalogue : Catalogue} (hr : r.Serves catalogue)
    {f : Frame} (hf : f.Addressable) {layout : NamedLayout}
    (hlayout : catalogue.layoutOf? f = some layout) (round : Round) :
    (r.deliver (round.own f 0 1)).result =
      (Payload.read layout.channels round.chunk).map fun values =>
        some (transferOf (f.received .single round.timestamp) layout.name values) := by
  have hstore : (r.reassembly.store
      ((f.part 0 1 round.chunk).received .single round.timestamp)).result =
        .ok (some ((f.part 0 1 round.chunk).received .single round.timestamp)) := by
    rw [Reassembly.store_of_single rfl]
  have hknown : r.catalogue.layoutOf?
      ((f.part 0 1 round.chunk).received .single round.timestamp) = some layout := by
    rw [hr.knows, Catalogue.layoutOf?_received]
    exact hlayout
  rw [deliver_own_eq hf r round FrameRole.ofPart_single, accept_of_some hstore hknown]
  rfl

/-- No part before the last one completes anything. -/
theorem deliver_own_before {r : Receiver} {catalogue : Catalogue} (hr : r.Serves catalogue)
    {f : Frame} (hf : f.Addressable) (round : Round) {index count : Nat}
    (hcount : index + 1 < count) :
    (r.deliver (round.own f index count)).result = .ok none := by
  obtain ⟨role, hrole, hsingle, hlast⟩ : ∃ role,
      FrameRole.ofPart index count = .ok role ∧ role ≠ .single ∧ role ≠ .last := by
    by_cases hindex : index = 0
    · subst hindex
      exact ⟨.start, FrameRole.ofPart_start (Nat.ne_of_lt hcount), by simp, by simp⟩
    · exact ⟨.middle, FrameRole.ofPart_middle hindex (Nat.ne_of_lt hcount), by simp, by simp⟩
  rw [deliver_own_eq hf r round hrole]
  apply accept_of_none
  rw [result_store_own hr f round index count role hsingle]
  exact congrArg _ (Slot.emit_of_ne_last _ _ hlast)

/-! ## Parts among other deliveries -/

/-- After some but not all parts, the slot holds these parts, whatever came in between. -/
theorem slot?_of_traffic {r : Receiver} {catalogue : Catalogue} (hr : r.Serves catalogue)
    {f : Frame} (hf : f.Addressable) {count : Nat} {first : Round} {rest : List Round}
    (hcount : rest.length + 1 < count)
    (hsize : (joinedChunks (first :: rest)).size ≤ catalogue.transferLimit)
    (hforeign : ∀ round ∈ first :: rest, ∀ d ∈ round.foreign, d.Foreign f.key) :
    ∃ isStart role,
      (r.run (traffic f count (first :: rest))).reassembly.slot? f.key =
        some (f.gathered first.timestamp (joinedChunks (first :: rest))
          (decide (rest.length % 2 = 0)) isStart role) := by
  induction rest using List.reverseRecOn with
  | nil =>
    have htraffic : traffic f count [first] = first.foreign ++ [first.own f 0 count] := by
      simp [traffic]
    have hchunks : joinedChunks [first] = first.chunk := by simp [joinedChunks]
    rw [hchunks] at hsize ⊢
    refine ⟨true, .start, ?_⟩
    rw [htraffic, run_append, run_singleton]
    exact slot?_deliver_start (serves_run hr first.foreign) hf hcount hsize
  | append_singleton rest round ih =>
    have hlength : (rest ++ [round]).length = rest.length + 1 := by simp
    rw [hlength] at hcount ⊢
    have hsplit : first :: (rest ++ [round]) = (first :: rest) ++ [round] := rfl
    rw [hsplit] at hsize hforeign ⊢
    have hearlierSize := Nat.le_trans (size_joinedChunks_le (first :: rest) [round]) hsize
    obtain ⟨isStart, role, hslot⟩ := ih (by omega) hearlierSize
      fun other hother => hforeign other (List.mem_append_left _ hother)
    have hserves := serves_run hr (traffic f count (first :: rest))
    rw [← slot?_run_of_foreign hserves (hforeign round (by simp))] at hslot
    rw [joinedChunks_concat] at hsize ⊢
    refine ⟨false, .middle, ?_⟩
    rw [traffic_concat, run_append, run_append, run_singleton]
    exact slot?_deliver_middle (serves_run hserves round.foreign) hf hslot hsize hcount

/-- The last part completes the transfer, and the payload of all parts is read. -/
theorem deliver_own_last {r : Receiver} {catalogue : Catalogue} (hr : r.Serves catalogue)
    {f : Frame} (hf : f.Addressable) {layout : NamedLayout}
    (hlayout : catalogue.layoutOf? f = some layout) {before : List Round} {round first : Round}
    (hfirst : (before ++ [round]).head? = some first)
    (hsize : (joinedChunks (before ++ [round])).size ≤ catalogue.transferLimit)
    (hforeign : ∀ other ∈ before ++ [round], ∀ d ∈ other.foreign, d.Foreign f.key) :
    ((r.run (traffic f (before.length + 1) before ++ round.foreign)).deliver
        (round.own f before.length (before.length + 1))).result =
      (Payload.read layout.channels (joinedChunks (before ++ [round]))).map fun values =>
        some (transferOf (f.received .single first.timestamp) layout.name values) := by
  cases before with
  | nil =>
    cases hfirst
    have hchunks : joinedChunks [round] = round.chunk := by simp [joinedChunks]
    rw [List.nil_append, hchunks]
    exact deliver_single (serves_run hr round.foreign) hf hlayout round
  | cons start rest =>
    cases hfirst
    have hserves := serves_run hr (traffic f (rest.length + 1 + 1) (first :: rest))
    obtain ⟨isStart, role, hslot⟩ := slot?_of_traffic hr hf (Nat.lt_succ_self (rest.length + 1))
      (Nat.le_trans (size_joinedChunks_le (first :: rest) [round]) hsize)
      fun other hother => hforeign other (List.mem_append_left _ hother)
    rw [← slot?_run_of_foreign hserves (hforeign round (by simp))] at hslot
    rw [joinedChunks_concat] at hsize ⊢
    rw [List.length_cons, run_append]
    exact deliver_end (serves_run hserves round.foreign) hf hslot hsize hlayout

/--
Values that a layout of a loaded schema serialises, sent as one frame or cut anywhere into several,
come out of any receiver that serves the schema.  Nothing comes out before the last part; then the
transfer has the address of the frame, the timestamp of the first part, and the values that the
layout takes.
-/
theorem receive_of_serialize {tree : FileTree} {root : Path} {table : TypeTable}
    {catalogue : Catalogue} (htable : TypeTable.ofTree tree root = .ok table)
    (hcatalogue : Catalogue.ofTable table = .ok catalogue) {template f : Frame}
    {layout : NamedLayout} (hlayout : catalogue.layoutOf? template = some layout)
    (htemplate : template.Addressable) {values : NamedValues}
    (hserialize : template.serializeNamed layout.channels values = .ok f)
    (hexact : ∀ c ∈ layout.channels, ∀ value ∈ c.valuesIn values, c.transmit value = value)
    {extra : Bytes} (hextra : extra.size ≤ 64) {rounds : List Round} (hrounds : rounds ≠ [])
    (hchunks : joinedChunks rounds = f.payload ++ extra)
    (hforeign : ∀ round ∈ rounds, ∀ d ∈ round.foreign, d.Foreign template.key)
    (earlier : List Delivery) :
    ∃ transfer : Transfer,
      transfer.subjectId = template.subjectId ∧ transfer.name = layout.name ∧
      transfer.isService = template.isService ∧
      transfer.isRequest = (!template.isService || template.isRequest) ∧
      transfer.source = template.source ∧
      transfer.destination = (if template.isService then template.destination else 0) ∧
      transfer.timestamp = (rounds.head hrounds).timestamp ∧
      (∀ key, transfer.values.get? key =
        if key ∈ (Allotment.ofNamed layout.channels values).named.map Prod.fst then values.get? key
        else none) ∧
      ∀ before round behind, rounds = before ++ round :: behind →
        (((ofCatalogue catalogue).run
          (earlier ++ traffic template rounds.length before ++ round.foreign)).deliver
            (round.own template before.length rounds.length)).result =
          .ok (if behind.isEmpty then some transfer else none) := by
  have hfits := Catalogue.fits_of_ofTable (TypeTable.sized_of_ofTree htable) hcatalogue
  have hchannels := Catalogue.fits_of_layoutOf? hfits hlayout
  obtain ⟨payload, hwrite, rfl⟩ := map_eq_ok_iff.mp hserialize
  have hsize : (joinedChunks rounds).size ≤ catalogue.transferLimit := by
    have hpayload := Catalogue.size_le_maxPayloadBytes hfits hlayout hwrite
    rw [hchunks, Array.size_append]
    exact Nat.add_le_add hpayload hextra
  have hread : Payload.read layout.channels (joinedChunks rounds) =
      .ok (Bindings.ofList (Allotment.ofNamed layout.channels values).named) := by
    rw [hchunks, ← Allotment.transmit_ofNamed hexact]
    exact Payload.read_of_writeNamed (fun c hc => (hchannels c hc).isCodable) hwrite extra
  refine ⟨transferOf (template.received .single (rounds.head hrounds).timestamp) layout.name
    (Bindings.ofList (Allotment.ofNamed layout.channels values).named),
    rfl, rfl, rfl, rfl, rfl, rfl, rfl, fun key => ?_, ?_⟩
  · exact Bindings.get?_bindAll_of_get? (Allotment.get?_of_mem_named layout.channels values) {} key
  · rintro before round behind rfl
    have hserves := serves_run (serves_ofCatalogue catalogue) earlier
    rw [List.append_assoc, run_append]
    cases behind with
    | nil =>
      have hlength : (before ++ [round]).length = before.length + 1 := by simp
      rw [hlength, deliver_own_last hserves htemplate hlayout (List.head?_eq_some_head hrounds)
        hsize hforeign, hread]
      rfl
    | cons next rest =>
      rw [deliver_own_before (serves_run hserves _) htemplate round]
      · rfl
      · simp

end Conversion

open scoped HalfConversion in
/-- A message in two parts, cut inside an array, with a message of one frame before each part. -/
theorem receive_of_serialize_two_parts :
    let tree := FileTree.ofTexts [("r/100.A.1.0.uavcan", "uint8 a\nuint8[<=3] b\n")]
    let template := Frame.message 100 5 2
    let values := Bindings.ofList [("A.a", Double.ofNat 7), ("A.b_0", Double.ofNat 9)]
    let other : Delivery := ⟨template.identifier, #[1, 224], 3⟩
    let first : Round := ⟨[other], #[7], 10⟩
    let second : Round := ⟨[other], #[37, 0, 255], 11⟩
    ∃ table catalogue layout transfer,
      TypeTable.ofTree tree (Path.ofText "r") = .ok table ∧
      Catalogue.ofTable table = .ok catalogue ∧
      catalogue.layoutOf? template = some layout ∧
      template.serializeNamed layout.channels values =
        .ok { template with payload := #[7, 37, 0] } ∧
      transfer.timestamp = 10 ∧ transfer.values.get? "A.b_0" = some (Double.ofNat 9) ∧
      (((ofCatalogue catalogue).run ([] ++ traffic template 2 [first] ++ [other])).deliver
        (second.own template 1 2)).result = .ok (some transfer) := by
  intro tree template values other first second
  let catalogue : Catalogue := { messages := [⟨100, "A", [Channel.scalar .unsigned 8 "A.a",
    Channel.dynamicArray .unsigned 8 "A.b" 3]⟩] }
  have hschema : (TypeTable.ofTree tree (Path.ofText "r") >>= Catalogue.ofTable) =
      .ok catalogue := by decide +kernel
  obtain ⟨table, htable, hcatalogue⟩ := bind_eq_ok_iff.mp hschema
  have hserialize : template.serializeNamed (NamedLayout.mk "A" [Channel.scalar .unsigned 8 "A.a",
      Channel.dynamicArray .unsigned 8 "A.b" 3]).channels values =
        .ok { template with payload := #[7, 37, 0] } := by decide +kernel
  have hexact : ∀ c ∈ [Channel.scalar .unsigned 8 "A.a", Channel.dynamicArray .unsigned 8 "A.b" 3],
      ∀ value ∈ c.valuesIn values, c.transmit value = value := by decide +kernel
  have hother : other.Foreign template.key := by
    have hrole : (Frame.decode other.identifier other.bytes other.timestamp).map Frame.role =
        .ok .single := by decide +kernel
    intro f hf
    rw [hf] at hrole
    exact Or.inl (Except.ok.inj hrole)
  have hforeign : ∀ round ∈ [first, second], ∀ d ∈ round.foreign, d.Foreign template.key := by
    simpa [first, second] using hother
  have hextra : (#[255] : Bytes).size ≤ 64 := by decide
  obtain ⟨transfer, -, -, -, -, -, -, htime, hvalues, hdeliver⟩ :=
    receive_of_serialize htable hcatalogue rfl
      ⟨by decide, by decide, by decide, by decide, by decide⟩ hserialize hexact hextra
      (List.cons_ne_nil first [second]) rfl hforeign []
  refine ⟨table, catalogue, _, transfer, htable, hcatalogue, rfl, hserialize, htime, ?_,
    hdeliver [first] second [] rfl⟩
  rw [hvalues]
  decide +kernel

end Receiver

end BusSchema
