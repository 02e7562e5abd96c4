import BusSchema.Proofs.Results
import BusSchema.Proofs.Transfer.Addressing
import Mathlib.Data.Nat.Bitwise

/-!
# The codec of frames

`Frame.decode` inverts `Frame.identifier` and `Frame.wireBytes` on the frames that can be received
(`Frame.Receivable`), and everything it reads is such a frame.  So an identifier and bytes that can
be read at all are written back from what was read, except that the identifier takes the reserved
bits of its layout (`Frame.decode_inverse`).
-/

namespace BusSchema

theorem BitField.get_lt (f : BitField) (identifier : Nat) : f.get identifier < twoPow f.width :=
  Nat.mod_lt _ (Nat.two_pow_pos f.width)

/-- The reserved bits of an identifier have their values, and there is no bit above the 29th. -/
structure Identifier.Canonical (identifier : Nat) : Prop where
  above : ∀ i, 29 ≤ i → identifier.testBit i = false
  reserved : identifier.testBit 23 = false
  /-- What is reserved in messages only, which are those without the service flag. -/
  message : identifier.testBit 25 = false →
    identifier.testBit 21 = true ∧ identifier.testBit 22 = true ∧
      identifier.testBit 7 = false ∧ identifier.testBit 24 = false

theorem Identifier.canonical_iff {identifier : Nat} :
    Canonical identifier ↔
      identifier < 2 ^ 29 ∧ identifier / 2 ^ 23 % 2 = 0 ∧
        (identifier / 2 ^ 25 % 2 = 0 →
          identifier / 2 ^ 21 % 4 = 3 ∧ identifier / 2 ^ 7 % 2 = 0 ∧
            identifier / 2 ^ 24 % 2 = 0) := by
  have habove : (∀ i, 29 ≤ i → identifier.testBit i = false) ↔ identifier < 2 ^ 29 := by
    refine ⟨Nat.lt_pow_two_of_testBit identifier, fun h i hi => ?_⟩
    exact Nat.testBit_lt_two_pow (Nat.lt_of_lt_of_le h (Nat.pow_le_pow_right Nat.two_pos hi))
  have hset : ∀ i, identifier.testBit i = true ↔ identifier / 2 ^ i % 2 = 1 := by
    intro i
    rw [Nat.testBit_eq_decide_div_mod_eq, decide_eq_true_eq]
  have hclear : ∀ i, identifier.testBit i = false ↔ identifier / 2 ^ i % 2 = 0 := by
    intro i
    rw [Nat.testBit_eq_decide_div_mod_eq, decide_eq_false_iff_not]
    omega
  rw [← habove]
  constructor
  · rintro ⟨habove, hreserved, hmessage⟩
    simp only [hset, hclear] at hreserved hmessage
    exact ⟨habove, hreserved, by omega⟩
  · rintro ⟨habove, hreserved, hmessage⟩
    refine ⟨habove, (hclear 23).mpr hreserved, ?_⟩
    simp only [hset, hclear]
    omega

theorem FrameRole.classify_eq_error_iff {isStart isEnd toggle : Bool} {e : FrameError} :
    classify isStart isEnd toggle = .error e ↔
      e = .legacyEncoding ∧ isStart = true ∧ toggle = false := by
  cases isStart <;> cases isEnd <;> cases toggle <;> simp [classify, eq_comm]

theorem toNat_decide_mod_two (n : Nat) : (decide (n % 2 = 1)).toNat = n % 2 := by
  rcases Nat.mod_two_eq_zero_or_one n with h | h <;> simp [h]

namespace Frame

/--
The frame can be received as it is: its numbers fit into their fields, a message has no destination
and counts as a request, and its flags stand for its role.
-/
structure Receivable (f : Frame) : Prop where
  addressable : f.Addressable
  message : f.isService = false → f.isRequest = true ∧ f.destination = 0
  role : FrameRole.classify f.isStart f.isEnd f.toggle = .ok f.role
  completed : f.completed = decide (f.role = .single)

theorem Receivable.received_self {f : Frame} (hf : f.Receivable) :
    f.received f.role f.timestamp = f := by
  have hrequest : (!f.isService || f.isRequest) = f.isRequest := by
    cases hservice : f.isService with
    | true => rfl
    | false => simp [(hf.message hservice).1]
  have hdestination : (if f.isService then f.destination else 0) = f.destination := by
    cases hservice : f.isService with
    | true => rfl
    | false => simp [(hf.message hservice).2]
  unfold received
  rw [hrequest, hdestination, ← hf.completed]

theorem decode_of_receivable {f : Frame} (hf : f.Receivable) :
    decode f.identifier f.wireBytes f.timestamp = .ok f := by
  rw [decode_wireBytes hf.addressable, hf.role]
  exact congrArg Except.ok hf.received_self

section Decoded

variable {identifier : Nat} {bytes : Bytes} {timestamp : Int} {payload : Bytes} {tail : UInt8}
  {role : FrameRole} {g : Frame}

/-- What is read from bytes that end in a tail. -/
theorem decode_push :
    decode identifier (payload.push tail) timestamp =
      (FrameRole.classify (Tail.startFlag.get tail.toNat = 1) (Tail.endFlag.get tail.toNat = 1)
        (Tail.toggle.get tail.toNat = 1)).map fun role =>
          assemble identifier payload tail.toNat role timestamp := by
  rw [decode, Array.back?_push, Array.pop_push]

/-- The numbers of a frame that was read fit into their fields. -/
theorem addressable_assemble :
    (assemble identifier payload tail.toNat role timestamp).Addressable where
  subject := by
    have hservice := Identifier.serviceId.get_lt identifier
    have hmessage := Identifier.messageId.get_lt identifier
    simp only [assemble, decide_eq_true_eq]
    split
    · exact Nat.le_of_lt_succ hservice
    · exact Nat.le_of_lt_succ hmessage
  source := Identifier.source.get_lt identifier
  destination := by
    have hdestination := Identifier.destination.get_lt identifier
    simp only [assemble]
    split
    · exact hdestination
    · exact Nat.zero_lt_succ _
  priority := Identifier.priority.get_lt identifier
  transfer := Tail.transferId.get_lt tail.toNat

theorem receivable_assemble
    (hrole : FrameRole.classify (Tail.startFlag.get tail.toNat = 1)
      (Tail.endFlag.get tail.toNat = 1) (Tail.toggle.get tail.toNat = 1) = .ok role) :
    (assemble identifier payload tail.toNat role timestamp).Receivable where
  addressable := addressable_assemble
  message h := by
    simp only [assemble, decide_eq_false_iff_not] at h
    simp [assemble, h]
  role := hrole
  completed := rfl

/-- Every bit of a tail is part of a field. -/
theorem tailByte_assemble :
    (assemble identifier payload tail.toNat role timestamp).tailByte = tail := by
  have htail := tail.toNat_lt
  rw [← UInt8.toNat_inj]
  simp only [tailByte, assemble, BitField.get, BitField.put, Tail.transferId, Tail.toggle,
    Tail.endFlag, Tail.startFlag, twoPow, UInt8.toNat_ofNat', Nat.pow_eq, Nat.pow_one,
    toNat_decide_mod_two]
  omega

/-- An identifier is written as it was read, but for its reserved bits. -/
theorem identifier_assemble_iff :
    (assemble identifier payload tail.toNat role timestamp).identifier = identifier ↔
      Identifier.Canonical identifier := by
  rw [Identifier.canonical_iff]
  by_cases hservice : identifier / 2 ^ 25 % 2 = 1
  · simp only [Frame.identifier, assemble, BitField.get, BitField.put, Identifier.serviceFlag,
      Identifier.serviceId, Identifier.requestFlag, Identifier.source, Identifier.destination,
      Identifier.priority, twoPow, Nat.pow_eq, Nat.mod_mod, Nat.pow_one, hservice, decide_true,
      if_true, toNat_decide_mod_two]
    omega
  · simp only [Frame.identifier, assemble, BitField.get, BitField.put, Identifier.serviceFlag,
      Identifier.messageId, Identifier.messageMark, Identifier.source, Identifier.priority,
      twoPow, Nat.pow_eq, Nat.mod_mod, Nat.pow_one, hservice, decide_false, if_false,
      Bool.false_eq_true]
    omega

/-- What is read can be received, and is read from the bytes that it would be sent as. -/
theorem decode_eq_ok (h : decode identifier bytes timestamp = .ok g) :
    g.Receivable ∧ g.timestamp = timestamp ∧ g.wireBytes = bytes ∧
      (g.identifier = identifier ↔ Identifier.Canonical identifier) := by
  have hne : bytes ≠ #[] := by
    rintro rfl
    cases h
  obtain ⟨payload, tail, rfl⟩ := Array.exists_push_of_ne_empty hne
  rw [decode_push] at h
  obtain ⟨role, hrole, rfl⟩ := map_eq_ok_iff.mp h
  exact ⟨receivable_assemble hrole, rfl, congrArg payload.push tailByte_assemble,
    identifier_assemble_iff⟩

/-- Bytes cannot be read if there are none, or the tail of a first frame has its toggle clear. -/
theorem decode_eq_error_iff {e : FrameError} :
    decode identifier bytes timestamp = .error e ↔
      (e = .noTail ∧ bytes = #[]) ∨
        (e = .legacyEncoding ∧ ∃ tail, bytes.back? = some tail ∧
          tail.toNat.testBit 7 = true ∧ tail.toNat.testBit 5 = false) := by
  by_cases hne : bytes = #[]
  · subst hne
    have hdecode : decode identifier #[] timestamp = .error .noTail := rfl
    simp [hdecode, @eq_comm _ e]
  · obtain ⟨payload, tail, rfl⟩ := Array.exists_push_of_ne_empty hne
    rw [decode_push, map_eq_error_iff, FrameRole.classify_eq_error_iff, Array.back?_push]
    simp [Nat.testBit_eq_decide_div_mod_eq, BitField.get, Tail.startFlag, Tail.toggle, twoPow]

end Decoded

/--
Sending and reading are inverse to each other.  A frame that can be received is read back from its
identifier and its bytes.  What is read from any identifier and bytes can be received, is sent as
the same bytes, is read again from what it is sent as, and has the same identifier exactly if the
reserved bits of that one have their values.  Bytes are refused if there are none, or the last of
them starts a transfer with its toggle clear, and for nothing else.
-/
theorem decode_inverse :
    (∀ f : Frame, f.Receivable → decode f.identifier f.wireBytes f.timestamp = .ok f) ∧
    ∀ (identifier : Nat) (bytes : Bytes) (timestamp : Int),
      (∀ g, decode identifier bytes timestamp = .ok g →
        g.Receivable ∧ g.timestamp = timestamp ∧ g.wireBytes = bytes ∧
          decode g.identifier bytes timestamp = .ok g ∧
          (g.identifier = identifier ↔ Identifier.Canonical identifier)) ∧
      ∀ e, decode identifier bytes timestamp = .error e ↔
        (e = .noTail ∧ bytes = #[]) ∨
          (e = .legacyEncoding ∧ ∃ tail, bytes.back? = some tail ∧
            tail.toNat.testBit 7 = true ∧ tail.toNat.testBit 5 = false) := by
  refine ⟨fun f hf => decode_of_receivable hf, fun identifier bytes timestamp => ⟨?_, ?_⟩⟩
  · intro g h
    obtain ⟨hg, rfl, rfl, hcanonical⟩ := decode_eq_ok h
    exact ⟨hg, rfl, rfl, decode_of_receivable hg, hcanonical⟩
  · exact fun e => decode_eq_error_iff

/-- The first frame of a request, and a message whose identifier has a reserved bit set. -/
theorem decode_inverse_reserved_bit :
    let f : Frame := { service 430 42 7 true 3 with
      transferId := 9, isEnd := false, role := .start, payload := #[1, 2], completed := false }
    f.Receivable ∧ decode f.identifier f.wireBytes f.timestamp = .ok f ∧
      ∃ g, decode 0x00fd552a #[5, 0xe3] 8 = .ok g ∧ g.wireBytes = #[5, 0xe3] ∧
        decode g.identifier #[5, 0xe3] 8 = .ok g ∧ g.identifier ≠ 0x00fd552a := by
  intro f
  have hf : f.Receivable := by
    refine ⟨⟨?_, ?_, ?_, ?_, ?_⟩, ?_, rfl, rfl⟩ <;> decide
  have hnot : ¬Identifier.Canonical 0x00fd552a := fun h => absurd h.reserved (by decide)
  obtain ⟨hsent, hread⟩ := decode_inverse
  obtain ⟨g, hg⟩ : ∃ g, decode 0x00fd552a #[5, 0xe3] 8 = .ok g := ⟨_, rfl⟩
  obtain ⟨-, -, hbytes, hagain, hcanonical⟩ := (hread _ _ _).1 g hg
  exact ⟨hf, hsent f hf, g, hg, hbytes, hagain, fun h => hnot (hcanonical.mp h)⟩

end Frame

end BusSchema
