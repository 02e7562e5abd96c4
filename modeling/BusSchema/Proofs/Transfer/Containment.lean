import BusSchema.Proofs.Payload.Reading
import BusSchema.Proofs.Transfer.Codec
import BusSchema.Proofs.Transfer.Session

/-!
# Refused frames

A receiver refuses a delivery that is no frame, or a completed transfer that it cannot read, and
for no other reason.  It is then as before, but for the slot that the transfer was in
(`Receiver.Refuses`).

Two receivers that agree on some slots answer alike to whatever is about no other slot
(`repliesTo_eq`), and a start frame makes them agree on its slot too (`AgreeOn.accept_start`).  So
a transfer that is refused has no effect on those of other keys, nor on the next one of its own
key (`contained_of_deliver`).
-/

namespace BusSchema

theorem Catalogue.unreadable_of_read [HalfConversion] {catalogue : Catalogue} {f : Frame}
    {e : FrameError} (h : catalogue.read f = .error e) : e.Unreadable := by
  cases hlayout : catalogue.layoutOf? f with
  | none =>
    rw [read_of_none hlayout] at h
    cases h
  | some layout =>
    rw [read_of_some hlayout] at h
    exact Payload.unreadable_of_read (map_eq_error_iff.mp h)

namespace Receiver

/-- Why a receiver refuses a delivery, and what it is afterwards. -/
inductive Refuses (r : Receiver) (d : Delivery) : FrameError → Receiver → Prop
  /-- The delivery is no frame. -/
  | undecodable {e : FrameError}
      (hdecode : Frame.decode d.identifier d.bytes d.timestamp = .error e)
      (he : e = .noTail ∨ e = .legacyEncoding) : Refuses r d e r
  /-- It is a transfer of its own that cannot be read. -/
  | single {e : FrameError} {f : Frame}
      (hdecode : Frame.decode d.identifier d.bytes d.timestamp = .ok f)
      (hrole : f.role = .single) (he : e.Unreadable) : Refuses r d e r
  /-- It completes a transfer that cannot be read, and that leaves its slot. -/
  | last {e : FrameError} {f completed : Frame}
      (hdecode : Frame.decode d.identifier d.bytes d.timestamp = .ok f)
      (hrole : f.role = .last) (hslot : (r.reassembly.slot? f.key).isSome)
      (hcompleted : (r.reassembly.store f).result = .ok (some completed)) (he : e.Unreadable) :
      Refuses r d e { r with reassembly := r.reassembly.drop f.key }

section Refuses

variable [HalfConversion]

theorem state_complete_of_error {r : Receiver} {f : Frame} {e : FrameError}
    (h : r.catalogue.read f = .error e) : (r.complete f).state = r := by
  unfold complete
  cases hlayout : r.catalogue.layoutOf? f with
  | none =>
    rw [Catalogue.read_of_none hlayout] at h
    cases h
  | some layout => rfl

/-- A completed transfer that cannot be read changes nothing but the slots. -/
theorem state_accept_of_error {r : Receiver} {f completed : Frame} {e : FrameError}
    (hstored : (r.reassembly.store f).result = .ok (some completed))
    (h : r.catalogue.read completed = .error e) :
    (r.accept f).state = { r with reassembly := (r.reassembly.store f).state } := by
  unfold accept
  simp only [hstored]
  exact state_complete_of_error h

/-- A refused frame completes a transfer that cannot be read. -/
theorem exists_of_accept_eq_error {r : Receiver} (hr : r.reassembly.Tidy) {f : Frame}
    {e : FrameError} (h : (r.accept f).result = .error e) :
    ∃ completed, (r.reassembly.store f).result = .ok (some completed) ∧
      r.catalogue.read completed = .error e := by
  rw [result_accept] at h
  rcases bind_eq_error_iff.mp h with hstored | ⟨completed, hstored, hread⟩
  · obtain ⟨emitted, hemitted⟩ := (Reassembly.handled_store hr f).result
    cases hemitted.symm.trans hstored
  · cases completed with
    | none => cases hread
    | some completed => exact ⟨completed, hstored, hread⟩

theorem refuses_of_deliver {r : Receiver} (hr : r.reassembly.Tidy) {d : Delivery} {e : FrameError}
    (h : (r.deliver d).result = .error e) : r.Refuses d e (r.deliver d).state := by
  cases hdecode : Frame.decode d.identifier d.bytes d.timestamp with
  | error reason =>
    rw [deliver_of_error hdecode] at h ⊢
    cases h
    rcases Frame.decode_eq_error_iff.mp hdecode with ⟨he, -⟩ | ⟨he, -⟩
    · exact .undecodable hdecode (Or.inl he)
    · exact .undecodable hdecode (Or.inr he)
  | ok f =>
    rw [deliver_of_ok hdecode] at h ⊢
    obtain ⟨completed, hstored, hread⟩ := exists_of_accept_eq_error hr h
    have he := Catalogue.unreadable_of_read hread
    rw [state_accept_of_error hstored hread]
    rcases Reassembly.completed_of_store hr hstored with
      ⟨hrole, -, hstore⟩ | ⟨hrole, hslot, hstore⟩
    · rw [hstore]
      exact .single hdecode hrole he
    · rw [hstore]
      exact .last hdecode hrole hslot hstored he

end Refuses

/-! ## Receivers that agree on slots -/

/-- The frame of a longer transfer that an input brings. -/
def Input.part? : Input → Option Frame
  | .receive d =>
    match Frame.decode d.identifier d.bytes d.timestamp with
    | .ok f => if f.role = .single then none else some f
    | .error _ => none
  | _ => none

/-- The input is about no slot, or about one of the given keys. -/
def Input.isWithin (keys : TransferKey → Bool) (input : Input) : Bool :=
  input.part?.all fun f => keys f.key

theorem isWithin_all (input : Input) : input.isWithin (fun _ => true) = true := by
  unfold Input.isWithin
  cases input.part? <;> rfl

/-- What a receiver answers to a sequence of inputs. -/
def replies [HalfConversion] (r : Receiver) (inputs : List Input) :
    List (Except FrameError (Option Transfer)) :=
  (r.steps inputs).map fun step => step.outcome.result

/-- What it answers to those of them that are about no slot or about one of the given keys. -/
def repliesTo [HalfConversion] (r : Receiver) (keys : TransferKey → Bool) (inputs : List Input) :
    List (Except FrameError (Option Transfer)) :=
  ((r.steps inputs).filter fun step => step.input.isWithin keys).map fun step =>
    step.outcome.result

section Replies

variable [HalfConversion] {keys : TransferKey → Bool} (r : Receiver) {input : Input}
  (rest : List Input)

theorem repliesTo_cons_of_isWithin (h : input.isWithin keys = true) :
    r.repliesTo keys (input :: rest) =
      (r.respond input).result :: (r.respond input).state.repliesTo keys rest := by
  simp [repliesTo, steps, h, Step.outcome]

theorem repliesTo_cons_of_not_isWithin (h : input.isWithin keys = false) :
    r.repliesTo keys (input :: rest) = (r.respond input).state.repliesTo keys rest := by
  simp [repliesTo, steps, h]

end Replies

/-- Two receivers read alike, and they hold the same in the slots of the given keys. -/
structure AgreeOn (keys : TransferKey → Bool) (r s : Receiver) : Prop where
  catalogue : r.catalogue = s.catalogue
  limit : r.reassembly.limit = s.reassembly.limit
  slots : ∀ key, keys key = true → r.reassembly.slot? key = s.reassembly.slot? key

section AgreeOn

variable {keys : TransferKey → Bool} {r s t : Receiver}

theorem AgreeOn.refl (keys : TransferKey → Bool) (r : Receiver) : AgreeOn keys r r :=
  ⟨rfl, rfl, fun _ _ => rfl⟩

theorem AgreeOn.trans (hrs : AgreeOn keys r s) (hst : AgreeOn keys s t) : AgreeOn keys r t where
  catalogue := hrs.catalogue.trans hst.catalogue
  limit := hrs.limit.trans hst.limit
  slots key hkey := (hrs.slots key hkey).trans (hst.slots key hkey)

theorem AgreeOn.symm (h : AgreeOn keys r s) : AgreeOn keys s r where
  catalogue := h.catalogue.symm
  limit := h.limit.symm
  slots key hkey := (h.slots key hkey).symm

variable [HalfConversion]

/-- A part of a transfer changes the slot of its key only. -/
theorem agreeOn_accept (hr : r.reassembly.Tidy) {f : Frame} (hf : keys f.key = false) :
    AgreeOn keys (r.accept f).state r := by
  obtain ⟨hcatalogue, hreassembly⟩ := state_accept r f
  refine ⟨hcatalogue, ?_, fun key hkey => ?_⟩
  · rw [hreassembly, Reassembly.limit_store hr.sound]
  · have hother : f.key ≠ key := by
      rintro rfl
      exact absurd (hf.symm.trans hkey) (by decide)
    rw [hreassembly, Reassembly.slot?_store hr.sound, if_pos (Or.inr hother)]

/-- Receivers that read alike accept a frame alike if they store it alike. -/
theorem AgreeOn.accept_of_store {stored : TransferKey → Bool} (h : AgreeOn keys r s)
    (hr : r.reassembly.Tidy) (hs : s.reassembly.Tidy) {f : Frame}
    (hresult : (r.reassembly.store f).result = (s.reassembly.store f).result)
    (hslots : ∀ key, stored key = true →
      (r.reassembly.store f).state.slot? key = (s.reassembly.store f).state.slot? key) :
    (r.accept f).result = (s.accept f).result ∧
      AgreeOn stored (r.accept f).state (s.accept f).state := by
  obtain ⟨hrcatalogue, hrstate⟩ := state_accept r f
  obtain ⟨hscatalogue, hsstate⟩ := state_accept s f
  refine ⟨by rw [result_accept, result_accept, hresult, h.catalogue], ?_, ?_, fun key hkey => ?_⟩
  · rw [hrcatalogue, hscatalogue, h.catalogue]
  · rw [hrstate, hsstate, Reassembly.limit_store hr.sound, Reassembly.limit_store hs.sound, h.limit]
  · rw [hrstate, hsstate, hslots key hkey]

/-- What a frame comes to depends on the slot of its key, if it depends on any slot. -/
theorem AgreeOn.accept (h : AgreeOn keys r s) (hr : r.reassembly.Tidy) (hs : s.reassembly.Tidy)
    {f : Frame} (hf : f.role = .single ∨ keys f.key = true) :
    (r.accept f).result = (s.accept f).result ∧
      AgreeOn keys (r.accept f).state (s.accept f).state := by
  refine h.accept_of_store hr hs ?_ fun key hkey => ?_
  · by_cases hsingle : f.role = .single
    · rw [Reassembly.store_of_single hsingle, Reassembly.store_of_single hsingle]
    · rw [Reassembly.result_store hr.sound hsingle, Reassembly.result_store hs.sound hsingle,
        h.limit, h.slots f.key (hf.resolve_left hsingle)]
  · rw [Reassembly.slot?_store hr.sound, Reassembly.slot?_store hs.sound, h.limit,
      h.slots key hkey]

/-- A start frame takes the place of whatever the slot of its key held. -/
theorem AgreeOn.accept_start {f : Frame} (h : AgreeOn (· ≠ f.key) r s) (hr : r.reassembly.Tidy)
    (hs : s.reassembly.Tidy) (hrole : f.role = .start) :
    (r.accept f).result = (s.accept f).result ∧
      AgreeOn (fun _ => true) (r.accept f).state (s.accept f).state := by
  have hpart : f.role ≠ .single := by simp [hrole]
  have hopen : f.role ≠ .last := by simp [hrole]
  refine h.accept_of_store hr hs ?_ fun key _ => ?_
  · rw [Reassembly.result_store hr.sound hpart, Reassembly.result_store hs.sound hpart,
      Slot.emit_of_ne_last _ _ hopen, Slot.emit_of_ne_last _ _ hopen]
  rw [Reassembly.slot?_store hr.sound, Reassembly.slot?_store hs.sound]
  by_cases hkey : f.key = key
  · have hown : ¬(f.role = .single ∨ f.key ≠ key) := by simp [hpart, hkey]
    rw [if_neg hown, if_neg hown, Slot.advance_of_start _ _ hrole,
      Slot.advance_of_start _ _ hrole, h.limit]
  · rw [if_pos (Or.inr hkey), if_pos (Or.inr hkey)]
    exact h.slots key (decide_eq_true (Ne.symm hkey))

/-- An input is answered alike by receivers that agree on the slot that it is about. -/
theorem AgreeOn.respond (h : AgreeOn keys r s) (hr : r.reassembly.Tidy) (hs : s.reassembly.Tidy)
    {input : Input} (hinput : input.isWithin keys = true) :
    (r.respond input).result = (s.respond input).result ∧
      AgreeOn keys (r.respond input).state (s.respond input).state := by
  cases input with
  | receive d =>
    simp only [Receiver.respond]
    cases hdecode : Frame.decode d.identifier d.bytes d.timestamp with
    | error e =>
      rw [deliver_of_error hdecode, deliver_of_error hdecode]
      exact ⟨rfl, h⟩
    | ok f =>
      rw [deliver_of_ok hdecode, deliver_of_ok hdecode]
      refine h.accept hr hs ?_
      by_cases hsingle : f.role = .single
      · exact Or.inl hsingle
      · simpa [Input.isWithin, Input.part?, hdecode, hsingle] using hinput
  | complete f =>
    obtain ⟨hrcatalogue, hrstate⟩ := state_complete r f
    obtain ⟨hscatalogue, hsstate⟩ := state_complete s f
    simp only [Receiver.respond]
    refine ⟨?_, ?_, ?_, fun key hkey => ?_⟩
    · rw [result_complete, result_complete, h.catalogue]
    · rw [hrcatalogue, hscatalogue, h.catalogue]
    · rw [hrstate, hsstate, h.limit]
    · rw [hrstate, hsstate, h.slots key hkey]
  | reload catalogue => exact ⟨rfl, rfl, rfl, h.slots⟩

/-- An input that is about a slot of no given key changes none of their slots. -/
theorem agreeOn_respond (hr : r.reassembly.Tidy) {input : Input}
    (hinput : input.isWithin keys = false) : AgreeOn keys (r.respond input).state r := by
  cases input with
  | receive d =>
    rw [respond]
    cases hdecode : Frame.decode d.identifier d.bytes d.timestamp with
    | error e => simp [Input.isWithin, Input.part?, hdecode] at hinput
    | ok f =>
      rw [deliver_of_ok hdecode]
      refine agreeOn_accept hr ?_
      by_cases hsingle : f.role = .single
      · simp [Input.isWithin, Input.part?, hdecode, hsingle] at hinput
      · simpa [Input.isWithin, Input.part?, hdecode, hsingle] using hinput
  | complete f => simp [Input.isWithin, Input.part?] at hinput
  | reload catalogue => simp [Input.isWithin, Input.part?] at hinput

/-- The parts of other transfers can be left out, and the replies to what remains are the same. -/
theorem AgreeOn.repliesTo_eq (h : AgreeOn keys r s) (hr : r.reassembly.Tidy)
    (hs : s.reassembly.Tidy) (inputs : List Input) :
    let remaining := inputs.filter (·.isWithin keys)
    r.repliesTo keys inputs = s.replies remaining ∧
      AgreeOn keys (r.after inputs) (s.after remaining) := by
  induction inputs generalizing r s with
  | nil => exact ⟨rfl, h⟩
  | cons input rest ih =>
    have hrnext := tidy_respond hr input
    cases hinput : input.isWithin keys with
    | true =>
      obtain ⟨hresult, hnext⟩ := h.respond hr hs hinput
      obtain ⟨hreplies, hafter⟩ := ih hnext hrnext (tidy_respond hs input)
      rw [List.filter_cons_of_pos hinput, repliesTo_cons_of_isWithin r rest hinput, hresult,
        hreplies]
      exact ⟨rfl, hafter⟩
    | false =>
      -- Only the first receiver gets this input, and what it changes is not compared.
      have hskipped : ¬input.isWithin keys = true := by simp [hinput]
      obtain ⟨hreplies, hafter⟩ := ih ((agreeOn_respond hr hinput).trans h) hrnext hs
      rw [List.filter_cons_of_neg hskipped, repliesTo_cons_of_not_isWithin r rest hinput]
      exact ⟨hreplies, hafter⟩

/-- Receivers that agree on all slots reply the same. -/
theorem AgreeOn.replies_eq (h : AgreeOn (fun _ => true) r s) (hr : r.reassembly.Tidy)
    (hs : s.reassembly.Tidy) (inputs : List Input) : r.replies inputs = s.replies inputs := by
  obtain ⟨hreplies, -⟩ := h.repliesTo_eq hr hs inputs
  simpa [repliesTo, isWithin_all, replies] using hreplies

end AgreeOn

/-! ## Transfers that leave no trace -/

theorem Refuses.agreeOn {r left : Receiver} {d : Delivery} {e : FrameError}
    (h : r.Refuses d e left) {f : Frame}
    (hf : Frame.decode d.identifier d.bytes d.timestamp = .ok f) :
    AgreeOn (· ≠ f.key) left r := by
  cases h with
  | undecodable => exact .refl _ r
  | single => exact .refl _ r
  | last hdecode =>
    cases hf.symm.trans hdecode
    refine ⟨rfl, rfl, fun key hkey => ?_⟩
    rw [Reassembly.slot?_drop, if_neg (Ne.symm (of_decide_eq_true hkey))]

section Forgets

variable [HalfConversion]

/-- A receiver goes on like another one, apart from what is under way with a key. -/
structure Forgets (key : TransferKey) (r other : Receiver) : Prop where
  /-- Whatever comes later, the replies to all but the parts with the key are as without these. -/
  foreign (later : List Input) :
    r.repliesTo (· ≠ key) later = other.replies (later.filter (·.isWithin (· ≠ key)))
  /-- From the next start frame with the key on, all replies are the same. -/
  next (later behind : List Input) {d : Delivery} {f : Frame}
    (hdecode : Frame.decode d.identifier d.bytes d.timestamp = .ok f) (hrole : f.role = .start)
    (hkey : f.key = key) :
    (r.after later).replies (.receive d :: behind) =
      (other.after (later.filter (·.isWithin (· ≠ key)))).replies (.receive d :: behind)

theorem AgreeOn.forgets {key : TransferKey} {r s : Receiver} (h : AgreeOn (· ≠ key) r s)
    (hr : r.reassembly.Tidy) (hs : s.reassembly.Tidy) : Forgets key r s where
  foreign later := (h.repliesTo_eq hr hs later).1
  next later behind d f hdecode hrole hkey := by
    subst hkey
    -- The start frame makes the two agree on the slot of the key as well.
    have hrlater := tidy_after hr later
    have hslater := tidy_after hs (later.filter (·.isWithin (· ≠ f.key)))
    obtain ⟨hresult, hall⟩ := (h.repliesTo_eq hr hs later).2.accept_start hrlater hslater hrole
    rw [← deliver_of_ok hdecode, ← deliver_of_ok hdecode] at hresult hall
    have hbehind := hall.replies_eq (tidy_respond hrlater (.receive d))
      (tidy_respond hslater (.receive d)) behind
    exact congrArg₂ List.cons hresult hbehind

/--
A receiver refuses a delivery that is no frame, and then it stays as it is; or it refuses a transfer
that it cannot read, and then at most the slot of this transfer is emptied.  If the refused frame
and all parts with its key are left out from any time on, the replies to everything else are the
same, before and after, and from the next start frame with the key on all replies are.
-/
theorem contained_of_deliver (catalogue : Catalogue) (earlier during : List Input) {d : Delivery}
    {e : FrameError}
    (h : (((ofCatalogue catalogue).after (earlier ++ during)).deliver d).result = .error e) :
    let r := (ofCatalogue catalogue).after (earlier ++ during)
    let left := (r.deliver d).state
    r.Refuses d e left ∧
      ∀ f, Frame.decode d.identifier d.bytes d.timestamp = .ok f →
        let start := (ofCatalogue catalogue).after earlier
        let others := during.filter (·.isWithin (· ≠ f.key))
        start.repliesTo (· ≠ f.key) during = start.replies others ∧
          left.Forgets f.key (start.after others) := by
  intro r left
  have htidy := tidy_after (tidy_ofCatalogue catalogue)
  have hrefuses : r.Refuses d e left := refuses_of_deliver (htidy _) h
  refine ⟨hrefuses, fun f hf => ?_⟩
  intro start others
  have hstart : start.reassembly.Tidy := htidy earlier
  obtain ⟨hreplies, hduring⟩ := (AgreeOn.refl (· ≠ f.key) start).repliesTo_eq hstart hstart during
  have hrun : start.after during = r := (after_append _ earlier during).symm
  rw [hrun] at hduring
  have hleft : left.reassembly.Tidy := tidy_respond (htidy _) (.receive d)
  exact ⟨hreplies, ((hrefuses.agreeOn hf).trans hduring).forgets hleft (tidy_after hstart others)⟩

end Forgets

open scoped HalfConversion in
/-- The second of two transfers goes on when the first one turns out to be too short. -/
theorem contained_of_deliver_two_transfers :
    let message := Frame.message 7 1 0
    let catalogue : Catalogue := { messages := [⟨7, "M", [Channel.scalar .unsigned 64 "M.a"]⟩] }
    let first : Input := .receive ⟨message.identifier, #[1, 160], 0⟩
    let second : Input := .receive ⟨message.identifier, #[1, 2, 3, 4, 5, 6, 7, 161], 0⟩
    let d : Delivery := ⟨message.identifier, #[2, 64], 0⟩
    let start := ofCatalogue catalogue
    let r := start.after [first, second]
    (r.deliver d).result = .error (.payloadTooShort 64 16) ∧
      r.Refuses d (.payloadTooShort 64 16) (r.deliver d).state ∧
      (r.deliver d).state.Forgets message.key (start.after [second]) := by
  intro message catalogue first second d start r
  have hstatus : (r.deliver d).result.map Option.isSome = .error (.payloadTooShort 64 16) := by
    decide +kernel
  have hresult := map_eq_error_iff.mp hstatus
  let last : Frame := { message with
    isStart := false, toggle := false, role := .last, payload := #[2], completed := false }
  have hdecode : Frame.decode d.identifier d.bytes d.timestamp = .ok last := by decide +kernel
  obtain ⟨hrefuses, hforgets⟩ := contained_of_deliver catalogue [] [first, second] hresult
  have hothers : [first, second].filter (·.isWithin (· ≠ last.key)) = [second] := by
    rw [List.filter_cons_of_neg (by decide +kernel), List.filter_cons_of_pos (by decide +kernel)]
    rfl
  have hkey : last.key = message.key := rfl
  have hleft := (hforgets last hdecode).2
  rw [hothers, hkey] at hleft
  exact ⟨hresult, hrefuses, hleft⟩

end Receiver

end BusSchema
