import BusSchema.Proofs.Reassembly.Slot
import Mathlib.Data.List.Nodup

/-!
# The invariant of the slots

Whatever frames come in, a slot holds frames of its own key, from a start frame on and without the
last one (`Reassembly.Tidy`).  So no frame in a slot is a transfer of its own, joining to it cannot
fail, and what is completed ends with a last frame and is within the limit (`Reassembly.tidy_run`).

`Reassembly.Handled` lists what can become of a frame; everything else is read off this list.
-/

namespace BusSchema

namespace Frame

/-- The frame is part of a longer transfer and does not end it. -/
def Unfinished (f : Frame) : Prop := f.role = .start ∨ f.role = .middle

theorem Unfinished.ne_single {f : Frame} (hf : f.Unfinished) : f.role ≠ .single := by
  rcases hf with h | h <;> simp [h]

@[simp]
theorem key_join (f next : Frame) : (f.join next).key = f.key := rfl

end Frame

namespace Reassembly

/-- Every key has one slot, and in it unfinished frames of that key. -/
structure Tidy (s : Reassembly) : Prop where
  nodup : (s.slots.map Prod.fst).Nodup
  keyed : ∀ entry ∈ s.slots, entry.2.key = entry.1
  unfinished : ∀ entry ∈ s.slots, entry.2.Unfinished

theorem mem_slots_of_slot? {s : Reassembly} {key : TransferKey} {held : Frame}
    (h : s.slot? key = some held) : (key, held) ∈ s.slots := by
  obtain ⟨entry, hentry, rfl⟩ := Option.map_eq_some_iff.mp h
  have hkey : entry.1 = key := by simpa using List.find?_some hentry
  exact hkey ▸ List.mem_of_find?_eq_some hentry

theorem tidy_empty (limit : Nat) : Tidy { limit } :=
  ⟨List.nodup_nil, by simp, by simp⟩

theorem Tidy.drop {s : Reassembly} (hs : s.Tidy) (key : TransferKey) : (s.drop key).Tidy where
  nodup := hs.nodup.sublist (List.filter_sublist.map Prod.fst)
  keyed entry hentry := hs.keyed entry (List.mem_filter.mp hentry).1
  unfinished entry hentry := hs.unfinished entry (List.mem_filter.mp hentry).1

theorem Tidy.fill {s : Reassembly} (hs : s.Tidy) {held : Frame} (hheld : held.Unfinished) :
    (s.fill held.key held).Tidy where
  nodup := by
    refine List.nodup_cons.mpr ⟨fun hmem => ?_, (hs.drop held.key).nodup⟩
    obtain ⟨entry, hentry, hkey⟩ := List.mem_map.mp hmem
    have hother := (List.mem_filter.mp hentry).2
    simp [hkey] at hother
  keyed := List.forall_mem_cons.mpr ⟨rfl, (hs.drop held.key).keyed⟩
  unfinished := List.forall_mem_cons.mpr ⟨hheld, (hs.drop held.key).unfinished⟩

/-- What can become of a frame. -/
inductive Handled (s : Reassembly) (f : Frame) : Stored → Prop
  /-- It is a transfer of its own. -/
  | passed (hf : f.role = .single) : Handled s f ⟨.ok (some f), s, []⟩
  /-- There is nothing that it continues. -/
  | ignored (notices : List Notice) : Handled s f ⟨.ok none, s, notices⟩
  /-- Its transfer is given up. -/
  | dropped (notices : List Notice) : Handled s f ⟨.ok none, s.drop f.key, notices⟩
  /-- It starts or continues a transfer. -/
  | held {held : Frame} (hkey : held.key = f.key) (hheld : held.Unfinished)
      (notices : List Notice) : Handled s f ⟨.ok none, s.fill f.key held, notices⟩
  /-- It completes a transfer. -/
  | completed {joined : Frame} (hkey : joined.key = f.key) (hcompleted : joined.completed = true)
      (hsize : joined.payload.size ≤ s.limit) : Handled s f ⟨.ok (some joined), s.drop f.key, []⟩

section Handled

variable {s : Reassembly} {f : Frame}

theorem handled_begin (hf : f.role = .start) : Handled s f (s.begin f) := by
  unfold begin
  split
  · exact .dropped _
  · exact .held rfl (Or.inl hf) _

theorem handled_continueWith (hs : s.Tidy) {buffered : Frame}
    (hslot : s.slot? f.key = some buffered) (hf : f.role = .middle ∨ f.role = .last) :
    Handled s f (s.continueWith buffered f) := by
  have hentry := mem_slots_of_slot? hslot
  have hjoined : (buffered.join f).key = f.key := (buffered.key_join f).trans (hs.keyed _ hentry)
  have hbuffered : buffered.role ≠ .single := (hs.unfinished _ hentry).ne_single
  have hpart : f.role ≠ .single := by rcases hf with h | h <;> simp [h]
  rw [continueWith, Frame.append_eq_join hbuffered hpart]
  by_cases htoggle : buffered.toggle = f.toggle
  · simp only [htoggle, if_true]
    exact .dropped _
  by_cases hsize : s.limit < (buffered.join f).payload.size
  · simp only [htoggle, hsize, if_true, if_false]
    exact .dropped _
  simp only [htoggle, hsize, if_false]
  rcases hf with hmiddle | hlast
  · have hopen : (buffered.join f).completed = false := by simp [hmiddle]
    simp only [hopen, Bool.false_eq_true, if_false]
    exact .held hjoined (Or.inr hmiddle) _
  · have hdone : (buffered.join f).completed = true := by simp [hlast]
    simp only [hdone, if_true]
    exact .completed hjoined hdone (Nat.le_of_not_lt hsize)

theorem handled_store (hs : s.Tidy) (f : Frame) : Handled s f (s.store f) := by
  unfold store
  cases hrole : f.role with
  | single => exact .passed hrole
  | start => exact handled_begin hrole
  | middle =>
    cases hslot : s.slot? f.key with
    | none => exact .ignored _
    | some buffered => exact handled_continueWith hs hslot (Or.inl hrole)
  | last =>
    cases hslot : s.slot? f.key with
    | none => exact .ignored _
    | some buffered => exact handled_continueWith hs hslot (Or.inr hrole)

variable {stored : Stored}

theorem Handled.tidy (h : Handled s f stored) (hs : s.Tidy) : stored.state.Tidy := by
  cases h with
  | passed => exact hs
  | ignored => exact hs
  | dropped => exact hs.drop f.key
  | held hkey hheld => exact hkey ▸ hs.fill hheld
  | completed => exact hs.drop f.key

theorem Handled.limit (h : Handled s f stored) : stored.state.limit = s.limit := by
  cases h <;> rfl

theorem Handled.result (h : Handled s f stored) : ∃ emitted, stored.result = .ok emitted := by
  cases h <;> exact ⟨_, rfl⟩

/-- Only a transfer that is whole and within the limit comes of a part of one. -/
theorem Handled.emitted (h : Handled s f stored) (hf : f.role ≠ .single) {g : Frame}
    (hg : stored.result = .ok (some g)) :
    g.key = f.key ∧ g.completed = true ∧ g.payload.size ≤ s.limit := by
  cases h with
  | passed hsingle => exact absurd hsingle hf
  | ignored => cases hg
  | dropped => cases hg
  | held => cases hg
  | completed hkey hcompleted hsize =>
    cases hg
    exact ⟨hkey, hcompleted, hsize⟩

end Handled

theorem tidy_step {s : Reassembly} (hs : s.Tidy) (event : Event) : (s.step event).Tidy := by
  cases event with
  | store f => exact (handled_store hs f).tidy hs
  | setLimit limit => exact ⟨hs.nodup, hs.keyed, hs.unfinished⟩
  | clear => exact tidy_empty s.limit

/-- The limit that an event sets. -/
def Event.limit? : Event → Option Nat
  | .setLimit limit => some limit
  | _ => none

/-- The limit that is in force after a sequence of events: the one that was set last. -/
def limitAfter (limit : Nat) (events : List Event) : Nat :=
  (events.filterMap Event.limit?).getLastD limit

theorem limit_step {s : Reassembly} (hs : s.Tidy) (event : Event) :
    (s.step event).limit = event.limit?.getD s.limit := by
  cases event with
  | store f => exact (handled_store hs f).limit
  | setLimit limit => rfl
  | clear => rfl

theorem tidy_run_limit {s : Reassembly} (hs : s.Tidy) (events : List Event) :
    (s.run events).Tidy ∧ (s.run events).limit = limitAfter s.limit events := by
  induction events generalizing s with
  | nil => exact ⟨hs, rfl⟩
  | cons event rest ih =>
    obtain ⟨htidy, hlimit⟩ := ih (tidy_step hs event)
    refine ⟨htidy, hlimit.trans ?_⟩
    rw [limit_step hs]
    cases hset : event.limit? with
    | none => rw [limitAfter, limitAfter, List.filterMap_cons_none hset, Option.getD_none]
    | some limit =>
      rw [limitAfter, limitAfter, List.filterMap_cons_some hset, List.getLastD_cons,
        Option.getD_some]

/--
After any sequence of events, whatever the fields of the frames are: every slot holds unfinished
frames of its own key, storing a frame is no error, and what is completed by a part of a longer
transfer is complete and within the limit that was set last.
-/
theorem tidy_run (limit : Nat) (events : List Event) :
    let s := run { limit } events
    s.Tidy ∧ ∀ f,
      (∃ emitted, (s.store f).result = .ok emitted) ∧
      ∀ g, f.role ≠ .single → (s.store f).result = .ok (some g) →
        g.completed = true ∧ g.payload.size ≤ limitAfter limit events := by
  intro s
  obtain ⟨hs, hlimit⟩ := tidy_run_limit (tidy_empty limit) events
  refine ⟨hs, fun f => ?_⟩
  have hhandled := handled_store hs f
  refine ⟨hhandled.result, fun g hf hg => ?_⟩
  obtain ⟨-, hcompleted, hsize⟩ := hhandled.emitted hf hg
  exact ⟨hcompleted, hlimit ▸ hsize⟩

/-- The limit shrinks while a transfer is under way; the flags of its frames do not fit its role. -/
theorem tidy_run_other_limit :
    let start : Frame := { Frame.message 7 1 0 with
      role := .start, transferId := 40, payload := #[1, 2], isEnd := true }
    let last : Frame := { start with role := .last, toggle := false, payload := #[3] }
    let events := [Event.store start, .setLimit 3]
    let s := run { limit := 9 } events
    s.Tidy ∧ last.role ≠ .single ∧ ∃ g, (s.store last).result = .ok (some g) ∧
      g.completed = true ∧ g.payload.size ≤ limitAfter 9 events := by
  intro start last events s
  have hlast : last.role ≠ .single := by decide
  obtain ⟨htidy, hstore⟩ := tidy_run 9 events
  obtain ⟨g, hg⟩ : ∃ g, (s.store last).result = .ok (some g) := ⟨_, rfl⟩
  exact ⟨htidy, hlast, g, hg, (hstore last).2 g hlast hg⟩

end Reassembly

end BusSchema
