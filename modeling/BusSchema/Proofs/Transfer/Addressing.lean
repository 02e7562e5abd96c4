import BusSchema.Transfer.Frame

/-!
# Frames on the bus and back

If the numbers of a frame fit into the fields of the identifier and the tail, then a receiver gets
the frame back (`decode_wireBytes`), except for what is not sent at all.
-/

namespace BusSchema

namespace Frame

/-- All numbers of the frame fit into their fields. -/
structure Addressable (f : Frame) : Prop where
  subject : f.subjectId ≤ if f.isService then 511 else 8191
  source : f.source < 128
  destination : f.destination < 128
  priority : f.priority < 8
  transfer : f.transferId < 32

/-- The frame as it is received: a message has no destination, and counts as a request. -/
def received (f : Frame) (role : FrameRole) (timestamp : Int) : Frame :=
  { f with
    isRequest := !f.isService || f.isRequest
    destination := if f.isService then f.destination else 0
    role
    completed := role = .single
    timestamp }

/-- The fields of a frame's tail. -/
theorem get_tailByte {f : Frame} (hf : f.Addressable) :
    Tail.transferId.get f.tailByte.toNat = f.transferId ∧
      Tail.toggle.get f.tailByte.toNat = f.toggle.toNat ∧
      Tail.endFlag.get f.tailByte.toNat = f.isEnd.toNat ∧
      Tail.startFlag.get f.tailByte.toNat = f.isStart.toNat := by
  have htransfer := hf.transfer
  have htoggle := Bool.toNat_le f.toggle
  have hend := Bool.toNat_le f.isEnd
  have hstart := Bool.toNat_le f.isStart
  simp only [tailByte, BitField.get, BitField.put, Tail.transferId, Tail.toggle, Tail.endFlag,
    Tail.startFlag, twoPow, UInt8.toNat_ofNat', Nat.pow_eq]
  omega

theorem get_identifier_service {f : Frame} (hf : f.Addressable) (hservice : f.isService = true) :
    Identifier.serviceFlag.get f.identifier = 1 ∧
      Identifier.serviceId.get f.identifier = f.subjectId ∧
      Identifier.requestFlag.get f.identifier = f.isRequest.toNat ∧
      Identifier.source.get f.identifier = f.source ∧
      Identifier.destination.get f.identifier = f.destination ∧
      Identifier.priority.get f.identifier = f.priority := by
  have hsubject := hf.subject
  have hsource := hf.source
  have hdestination := hf.destination
  have hpriority := hf.priority
  have hrequest := Bool.toNat_le f.isRequest
  rw [hservice, if_pos rfl] at hsubject
  simp only [identifier, hservice, if_true, BitField.get, BitField.put, Identifier.serviceFlag,
    Identifier.serviceId, Identifier.requestFlag, Identifier.source, Identifier.destination,
    Identifier.priority, twoPow, Nat.pow_eq]
  omega

theorem get_identifier_message {f : Frame} (hf : f.Addressable) (hservice : f.isService = false) :
    Identifier.serviceFlag.get f.identifier = 0 ∧
      Identifier.messageId.get f.identifier = f.subjectId ∧
      Identifier.source.get f.identifier = f.source ∧
      Identifier.priority.get f.identifier = f.priority := by
  have hsubject := hf.subject
  have hsource := hf.source
  have hpriority := hf.priority
  rw [hservice, if_neg (by simp)] at hsubject
  simp only [identifier, hservice, Bool.false_eq_true, if_false, BitField.get, BitField.put,
    Identifier.serviceFlag, Identifier.messageId, Identifier.messageMark, Identifier.source,
    Identifier.priority, twoPow, Nat.pow_eq]
  omega

theorem assemble_identifier {f : Frame} (hf : f.Addressable) (role : FrameRole)
    (timestamp : Int) :
    assemble f.identifier f.payload f.tailByte.toNat role timestamp =
      f.received role timestamp := by
  obtain ⟨htransfer, htoggle, hend, hstart⟩ := get_tailByte hf
  unfold assemble received
  cases hservice : f.isService with
  | true =>
    obtain ⟨hflag, hsubject, hrequest, hsource, hdestination, hpriority⟩ :=
      get_identifier_service hf hservice
    simp [htransfer, htoggle, hend, hstart, hflag, hsubject, hrequest, hsource, hdestination,
      hpriority]
  | false =>
    obtain ⟨hflag, hsubject, hsource, hpriority⟩ := get_identifier_message hf hservice
    simp [htransfer, htoggle, hend, hstart, hflag, hsubject, hsource, hpriority]

/-- A frame that is sent is received as it is, in the role that its flags stand for. -/
theorem decode_wireBytes {f : Frame} (hf : f.Addressable) (timestamp : Int) :
    decode f.identifier f.wireBytes timestamp =
      (FrameRole.classify f.isStart f.isEnd f.toggle).map fun role =>
        f.received role timestamp := by
  obtain ⟨-, htoggle, hend, hstart⟩ := get_tailByte hf
  have hback : f.wireBytes.back? = some f.tailByte := Array.back?_push
  have hpop : f.wireBytes.pop = f.payload := Array.pop_push
  unfold decode
  rw [hback, hpop]
  simp [htoggle, hend, hstart, assemble_identifier hf]

end Frame

end BusSchema
