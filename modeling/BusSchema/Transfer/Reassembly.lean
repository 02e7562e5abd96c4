import BusSchema.Notice
import BusSchema.Transfer.Frame

/-!
# Reassembly

Transfers of several frames are put together in slots, one for each pair of transfer id and
subject id.  A slot holds the frames so far, joined into one frame, from a start frame on.  A
frame that does not continue its slot drops what the slot holds, and so does a transfer that
grows beyond the size limit; neither is an error.

`Reassembly.store` is one step as a function of the state, and `Reassembly.run` a sequence of
steps.
-/

namespace BusSchema

/-- What a step of a machine comes to: its result, the state after it, and what it reports. -/
structure Outcome (σ α : Type) where
  result : α
  state : σ
  notices : List Notice := []

/-- What a transfer of several frames is told apart by. -/
structure TransferKey where
  transferId : Nat
  subjectId : Nat
deriving DecidableEq

/-- The key of a frame's transfer. -/
def Frame.key (f : Frame) : TransferKey := ⟨f.transferId, f.subjectId⟩

/-- The transfers that are under way. -/
structure Reassembly where
  /-- No transfer may have more payload bytes. -/
  limit : Nat := twoPow 64 - 1
  /-- The joined frames of each transfer, one entry for a key. -/
  slots : List (TransferKey × Frame) := []

namespace Reassembly

/-- The joined frames of a transfer. -/
def slot? (s : Reassembly) (key : TransferKey) : Option Frame :=
  (s.slots.find? (·.1 = key)).map Prod.snd

/-- The state without the transfer of a key. -/
def drop (s : Reassembly) (key : TransferKey) : Reassembly :=
  { s with slots := s.slots.filter (·.1 ≠ key) }

/-- The state with joined frames in the slot of a key. -/
def fill (s : Reassembly) (key : TransferKey) (f : Frame) : Reassembly :=
  { s with slots := (key, f) :: (s.drop key).slots }

theorem slot?_drop (s : Reassembly) (key other : TransferKey) :
    (s.drop key).slot? other = if key = other then none else s.slot? other := by
  unfold slot? drop
  rw [List.find?_filter]
  by_cases h : key = other
  · subst h
    rw [if_pos rfl, Option.map_eq_none_iff, List.find?_eq_none]
    intro entry _ hentry
    simp at hentry
  · rw [if_neg h]
    congr 2
    funext entry
    by_cases hentry : entry.1 = other
    · simp [hentry, Ne.symm h]
    · simp [hentry]

theorem slot?_fill (s : Reassembly) (key other : TransferKey) (f : Frame) :
    (s.fill key f).slot? other = if key = other then some f else s.slot? other := by
  by_cases h : key = other
  · simp [slot?, fill, h]
  · have hdrop := slot?_drop s key other
    rw [if_neg h] at hdrop ⊢
    rw [← hdrop]
    simp [slot?, fill, h]

/-- The number of transfers that are under way. -/
def pending (s : Reassembly) : Nat := s.slots.length

/-- The state without any transfer under way. -/
def clear (s : Reassembly) : Reassembly := { s with slots := [] }

/-- The state with another size limit; transfers under way keep their bytes. -/
def setLimit (s : Reassembly) (limit : Nat) : Reassembly := { s with limit }

/-- What storing a frame comes to: a completed transfer, nothing yet, or an error. -/
abbrev Stored := Outcome Reassembly (Except FrameError (Option Frame))

/-- Stores a start frame, in place of a transfer of the same key. -/
def begin (s : Reassembly) (f : Frame) : Stored :=
  let key := f.key
  if s.limit < f.payload.size then
    ⟨.ok none, s.drop key, [.oversizedStart key.transferId key.subjectId s.limit]⟩
  else
    let notices :=
      if (s.slot? key).isSome then [Notice.restarted key.transferId key.subjectId] else []
    ⟨.ok none, s.fill key f, notices⟩

/-- Stores a frame that continues the frames in its slot. -/
def continueWith (s : Reassembly) (buffered f : Frame) : Stored :=
  let key := f.key
  if buffered.toggle = f.toggle then
    ⟨.ok none, s.drop key, [.repeatedToggle key.transferId key.subjectId]⟩
  else
    match buffered.append f with
    | .error e => ⟨.error e, s, []⟩
    | .ok joined =>
      if s.limit < joined.payload.size then
        ⟨.ok none, s.drop key, [.oversizedTransfer key.transferId key.subjectId s.limit]⟩
      else if joined.completed then ⟨.ok (some joined), s.drop key, []⟩
      else ⟨.ok none, s.fill key joined, []⟩

/-- Stores a frame.  A frame that is a transfer of its own passes through. -/
def store (s : Reassembly) (f : Frame) : Stored :=
  match f.role with
  | .single => ⟨.ok (some f), s, []⟩
  | .start => s.begin f
  | _ =>
    match s.slot? f.key with
    | none => ⟨.ok none, s, [.strayFrame f.transferId f.subjectId]⟩
    | some buffered => s.continueWith buffered f

/-- What can happen to a reassembly. -/
inductive Event
  | store (frame : Frame)
  | setLimit (limit : Nat)
  | clear

/-- The state after an event. -/
def step (s : Reassembly) : Event → Reassembly
  | .store frame => (s.store frame).state
  | .setLimit limit => s.setLimit limit
  | .clear => s.clear

/-- The state after a sequence of events. -/
def run (s : Reassembly) (events : List Event) : Reassembly := events.foldl step s

end Reassembly

end BusSchema
