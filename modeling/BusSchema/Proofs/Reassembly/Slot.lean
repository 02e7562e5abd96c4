import BusSchema.Transfer.Reassembly

/-!
# One slot at a time

Storing a frame looks at the slot of the frame's key and touches no other slot.  `Slot.advance` is
that step as a function of the slot alone, and `slot?_store` and `result_store` say that storing
is this step.  What is proved about single slots so holds of the whole reassembly, however the
frames of different transfers are interleaved.
-/

namespace BusSchema

namespace Frame

/-- The frames of a transfer so far with one more joined to them. -/
def join (f next : Frame) : Frame :=
  { f with
    isStart := false
    payload := f.payload ++ next.payload
    toggle := next.toggle
    role := next.role
    completed := next.role = .last }

theorem append_eq_join {f next : Frame} (hf : f.role ≠ .single) (hnext : next.role ≠ .single) :
    f.append next = .ok (f.join next) := by
  rw [append, if_neg (not_or.mpr ⟨hf, hnext⟩)]
  rfl

@[simp]
theorem toggle_join (f next : Frame) : (f.join next).toggle = next.toggle := rfl

@[simp]
theorem payload_join (f next : Frame) : (f.join next).payload = f.payload ++ next.payload := rfl

@[simp]
theorem completed_join (f next : Frame) :
    (f.join next).completed = decide (next.role = .last) := rfl

end Frame

namespace Slot

/-- What a slot holds after a frame of its key that is no transfer of its own. -/
def advance (limit : Nat) (held : Option Frame) (f : Frame) : Option Frame :=
  if f.role = .start then if limit < f.payload.size then none else some f
  else
    match held with
    | none => none
    | some buffered =>
      if buffered.toggle = f.toggle ∨ limit < (buffered.join f).payload.size ∨ f.role = .last then
        none
      else some (buffered.join f)

theorem advance_of_start (limit : Nat) (held : Option Frame) {f : Frame} (h : f.role = .start) :
    advance limit held f = if limit < f.payload.size then none else some f := by
  rw [advance.eq_def, if_pos h]

theorem advance_none (limit : Nat) {f : Frame} (h : f.role ≠ .start) :
    advance limit none f = none := by
  rw [advance.eq_def, if_neg h]

theorem advance_some (limit : Nat) (buffered : Frame) {f : Frame} (h : f.role ≠ .start) :
    advance limit (some buffered) f =
      if buffered.toggle = f.toggle ∨ limit < (buffered.join f).payload.size ∨ f.role = .last then
        none
      else some (buffered.join f) := by
  rw [advance.eq_def, if_neg h]

/-- The transfer that a frame of the slot's key completes. -/
def emit (limit : Nat) (held : Option Frame) (f : Frame) : Option Frame :=
  if f.role = .last then
    held.bind fun buffered =>
      if buffered.toggle = f.toggle ∨ limit < (buffered.join f).payload.size then none
      else some (buffered.join f)
  else none

theorem emit_of_ne_last (limit : Nat) (held : Option Frame) {f : Frame} (h : f.role ≠ .last) :
    emit limit held f = none := by
  rw [emit.eq_def, if_neg h]

theorem emit_of_last {limit : Nat} {buffered f : Frame} (h : f.role = .last)
    (htoggle : buffered.toggle ≠ f.toggle) (hsize : (buffered.join f).payload.size ≤ limit) :
    emit limit (some buffered) f = some (buffered.join f) := by
  rw [emit.eq_def, if_pos h, Option.bind_some, if_neg]
  rw [not_or, Nat.not_lt]
  exact ⟨htoggle, hsize⟩

/-- A slot does not hold a transfer of a single frame. -/
def Holdable (held : Option Frame) : Prop := ∀ f ∈ held, f.role ≠ .single

theorem holdable_advance (limit : Nat) (held : Option Frame) {f : Frame} (hf : f.role ≠ .single) :
    Holdable (advance limit held f) := by
  intro next hnext
  unfold advance at hnext
  split at hnext
  · split at hnext
    · cases hnext
    · cases hnext
      exact hf
  · split at hnext
    · cases hnext
    · split at hnext
      · cases hnext
      · cases hnext
        exact hf

end Slot

namespace Reassembly

theorem store_of_single {s : Reassembly} {f : Frame} (h : f.role = .single) :
    s.store f = ⟨.ok (some f), s, []⟩ := by
  simp only [store, h]

/-- What storing a frame comes to, seen from the frame's own slot. -/
structure StoresAs (s : Reassembly) (f : Frame) (stored : Stored) (held : Option Frame)
    (emitted : Option Frame) : Prop where
  result : stored.result = .ok emitted
  limit : stored.state.limit = s.limit
  slot : ∀ key, stored.state.slot? key = if f.key = key then held else s.slot? key

theorem storesAs_drop (s : Reassembly) (f : Frame) (emitted : Option Frame)
    (notices : List Notice) :
    StoresAs s f ⟨.ok emitted, s.drop f.key, notices⟩ none emitted :=
  ⟨rfl, rfl, slot?_drop s f.key⟩

theorem storesAs_fill (s : Reassembly) (f held : Frame) (notices : List Notice) :
    StoresAs s f ⟨.ok none, s.fill f.key held, notices⟩ (some held) none :=
  ⟨rfl, rfl, fun key => slot?_fill s f.key key held⟩

theorem storesAs_begin (s : Reassembly) {f : Frame} (h : f.role = .start) :
    StoresAs s f (s.begin f) (Slot.advance s.limit (s.slot? f.key) f)
      (Slot.emit s.limit (s.slot? f.key) f) := by
  have hemit := Slot.emit_of_ne_last s.limit (s.slot? f.key) (f := f) (by simp [h])
  rw [hemit, Slot.advance_of_start s.limit _ h, begin]
  split
  · exact storesAs_drop s f none _
  · exact storesAs_fill s f f _

theorem storesAs_continueWith (s : Reassembly) {buffered f : Frame}
    (hbuffered : buffered.role ≠ .single) (hf : f.role ≠ .single) (hstart : f.role ≠ .start) :
    StoresAs s f (s.continueWith buffered f) (Slot.advance s.limit (some buffered) f)
      (Slot.emit s.limit (some buffered) f) := by
  have hadvance := Slot.advance_some s.limit buffered hstart
  unfold continueWith Slot.emit
  rw [hadvance, Frame.append_eq_join hbuffered hf]
  by_cases htoggle : buffered.toggle = f.toggle
  · simpa [htoggle] using storesAs_drop s f none _
  by_cases hsize : s.limit < (buffered.join f).payload.size
  · simp only [htoggle, hsize, if_true, if_false, false_or, true_or, Option.bind_some, ite_self]
    exact storesAs_drop s f none _
  simp only [htoggle, hsize, if_false, false_or, Option.bind_some, Frame.completed_join,
    decide_eq_true_eq]
  by_cases hlast : f.role = .last
  · simp only [hlast, if_true]
    exact storesAs_drop s f _ _
  · simp only [hlast, if_false]
    exact storesAs_fill s f _ _

/-- Storing a part of a longer transfer is a step of its slot, and never an error. -/
theorem storesAs_store (s : Reassembly) {f : Frame} (hf : f.role ≠ .single)
    (hheld : Slot.Holdable (s.slot? f.key)) :
    StoresAs s f (s.store f) (Slot.advance s.limit (s.slot? f.key) f)
      (Slot.emit s.limit (s.slot? f.key) f) := by
  by_cases hstart : f.role = .start
  · have hstore : s.store f = s.begin f := by simp only [store, hstart]
    rw [hstore]
    exact storesAs_begin s hstart
  have hstore : s.store f =
      match s.slot? f.key with
      | none => ⟨.ok none, s, [.strayFrame f.transferId f.subjectId]⟩
      | some buffered => s.continueWith buffered f := by
    unfold store
    cases hrole : f.role with
    | single => exact absurd hrole hf
    | start => exact absurd hrole hstart
    | middle => rfl
    | last => rfl
  rw [hstore]
  cases hslot : s.slot? f.key with
  | none =>
    have hemit : Slot.emit s.limit none f = none := by simp [Slot.emit]
    rw [Slot.advance_none s.limit hstart, hemit]
    refine ⟨rfl, rfl, fun key => ?_⟩
    by_cases hkey : f.key = key
    · rw [if_pos hkey, ← hkey, hslot]
    · rw [if_neg hkey]
  | some buffered =>
    exact storesAs_continueWith s (hheld buffered (by rw [hslot]; rfl)) hf hstart

/-- No slot holds a transfer of a single frame. -/
def Sound (s : Reassembly) : Prop := ∀ key, Slot.Holdable (s.slot? key)

theorem slot?_store {s : Reassembly} (hs : s.Sound) (f : Frame) (key : TransferKey) :
    (s.store f).state.slot? key =
      if f.role = .single ∨ f.key ≠ key then s.slot? key
      else Slot.advance s.limit (s.slot? key) f := by
  by_cases hsingle : f.role = .single
  · rw [store_of_single hsingle, if_pos (Or.inl hsingle)]
  rw [(storesAs_store s hsingle (hs f.key)).slot]
  by_cases hkey : f.key = key
  · subst hkey
    rw [if_pos rfl, if_neg (by simp [hsingle])]
  · rw [if_neg hkey, if_pos (Or.inr hkey)]

@[simp]
theorem limit_store {s : Reassembly} (hs : s.Sound) (f : Frame) :
    (s.store f).state.limit = s.limit := by
  by_cases hsingle : f.role = .single
  · rw [store_of_single hsingle]
  · exact (storesAs_store s hsingle (hs f.key)).limit

theorem result_store {s : Reassembly} (hs : s.Sound) {f : Frame} (hf : f.role ≠ .single) :
    (s.store f).result = .ok (Slot.emit s.limit (s.slot? f.key) f) :=
  (storesAs_store s hf (hs f.key)).result

theorem sound_empty (limit : Nat) : Sound { limit } := by
  intro key f hf
  cases hf

theorem sound_step {s : Reassembly} (hs : s.Sound) (event : Event) : (s.step event).Sound := by
  intro key
  cases event with
  | store f =>
    rw [step, slot?_store hs]
    split
    · exact hs key
    · next h => exact Slot.holdable_advance _ _ (not_or.mp h).1
  | setLimit limit => exact hs key
  | clear => intro f hf; cases hf

theorem sound_run {s : Reassembly} (hs : s.Sound) (events : List Event) :
    (s.run events).Sound := by
  induction events generalizing s with
  | nil => exact hs
  | cons event rest ih => exact ih (sound_step hs event)

end Reassembly

end BusSchema
