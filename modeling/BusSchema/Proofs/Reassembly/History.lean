import BusSchema.Proofs.Reassembly.Slot
import Mathlib.Data.List.Chain
import Mathlib.Data.List.Induction

/-!
# Reassembly as a function of the history

`history` keeps, for one key, the frames of its transfers since the last clearing, each with the
size limit that was in force when it came in.  The main statement is `store_run_iff`: after any
sequence of events, the transfer that a frame completes is read off the history of its key, and
nothing else that happened has any influence.
-/

namespace BusSchema

namespace Reassembly

/-- A frame with the size limit in force when it came in. -/
structure Arrival where
  frame : Frame
  limit : Nat

/-- What one key has seen, and the limit that is in force now. -/
structure History where
  limit : Nat
  /-- The parts of longer transfers since the last clearing, oldest first. -/
  arrivals : List Arrival := []

namespace History

/-- The history of a key after one more event. -/
def step (key : TransferKey) (h : History) : Event → History
  | .store f =>
    if f.role = .single ∨ f.key ≠ key then h
    else { h with arrivals := h.arrivals ++ [⟨f, h.limit⟩] }
  | .setLimit limit => { h with limit }
  | .clear => { h with arrivals := [] }

end History

/-- The history of a key over a sequence of events, which starts with the given limit. -/
def history (limit : Nat) (key : TransferKey) (events : List Event) : History :=
  events.foldl (History.step key) { limit }

/-- The payloads of frames, one after the other. -/
def joinedPayload (frames : List Frame) : Bytes :=
  frames.foldl (fun bytes f => bytes ++ f.payload) #[]

/-- A start frame and frames that continue it, each with a new toggle and within its limit. -/
structure Follows (start : Arrival) (rest : List Arrival) : Prop where
  starts : start.frame.role = .start
  alternates : (start :: rest).IsChain fun a b => a.frame.toggle ≠ b.frame.toggle
  fits : ∀ front last, front ++ [last] <+: start :: rest →
    (joinedPayload ((front ++ [last]).map Arrival.frame)).size ≤ last.limit

/-- A start frame with the frames behind it joined to it. -/
def joined (start : Arrival) (rest : List Arrival) : Frame :=
  rest.foldl (fun f a => f.join a.frame) start.frame

/-- What a slot holds after arrivals of its key. -/
def held (arrivals : List Arrival) : Option Frame :=
  arrivals.foldl (fun held a => Slot.advance a.limit held a.frame) none

/-! ## Adding one arrival at the end -/

theorem joinedPayload_concat (frames : List Frame) (f : Frame) :
    joinedPayload (frames ++ [f]) = joinedPayload frames ++ f.payload := by
  rw [joinedPayload, List.foldl_append]
  rfl

theorem joined_concat (start : Arrival) (rest : List Arrival) (a : Arrival) :
    joined start (rest ++ [a]) = (joined start rest).join a.frame := by
  rw [joined, List.foldl_append]
  rfl

theorem held_concat (arrivals : List Arrival) (a : Arrival) :
    held (arrivals ++ [a]) = Slot.advance a.limit (held arrivals) a.frame := by
  rw [held, List.foldl_append]
  rfl

theorem payload_joined (start : Arrival) (rest : List Arrival) :
    (joined start rest).payload = joinedPayload ((start :: rest).map Arrival.frame) := by
  induction rest using List.reverseRecOn with
  | nil => simp [joined, joinedPayload]
  | append_singleton rest a ih =>
    rw [joined_concat, Frame.payload_join, ih, ← joinedPayload_concat]
    simp

theorem toggle_joined (start : Arrival) (rest : List Arrival) :
    (joined start rest).toggle = (rest.getLast?.getD start).frame.toggle := by
  induction rest using List.reverseRecOn with
  | nil => rfl
  | append_singleton rest a ih => simp [joined_concat]

/-- All fields of joined frames, the last of which is given. -/
theorem joined_concat_eq (start : Arrival) (rest : List Arrival) (a : Arrival) :
    joined start (rest ++ [a]) =
      { start.frame with
        isStart := false
        payload := joinedPayload ((start :: rest ++ [a]).map Arrival.frame)
        toggle := a.frame.toggle
        role := a.frame.role
        completed := a.frame.role = .last } := by
  induction rest using List.reverseRecOn generalizing a with
  | nil => simp [joined, joinedPayload, Frame.join]
  | append_singleton rest b ih =>
    have hpayload : joinedPayload ((start :: (rest ++ [b]) ++ [a]).map Arrival.frame) =
        joinedPayload ((start :: rest ++ [b]).map Arrival.frame) ++ a.frame.payload := by
      rw [← joinedPayload_concat]
      simp
    rw [joined_concat, ih b, hpayload]
    rfl

theorem follows_concat_iff (start : Arrival) (rest : List Arrival) (a : Arrival) :
    Follows start (rest ++ [a]) ↔
      Follows start rest ∧ (joined start rest).toggle ≠ a.frame.toggle ∧
        ((joined start rest).join a.frame).payload.size ≤ a.limit := by
  have hlast : (start :: rest).getLast? = some (rest.getLast?.getD start) := by
    rw [List.getLast?_cons]
  have hsize : ((joined start rest).join a.frame).payload =
      joinedPayload ((start :: rest ++ [a]).map Arrival.frame) := by
    rw [← joined_concat, payload_joined, List.cons_append]
  rw [toggle_joined, hsize]
  constructor
  · rintro ⟨hstarts, halternates, hfits⟩
    rw [← List.cons_append, List.isChain_append] at halternates
    refine ⟨⟨hstarts, halternates.1, ?_⟩, ?_, ?_⟩
    · intro front last hearlier
      exact hfits front last (hearlier.trans (List.prefix_append _ _))
    · exact halternates.2.2 _ (by simp [hlast]) a (by simp)
    · exact hfits (start :: rest) a (List.prefix_refl _)
  · rintro ⟨⟨hstarts, halternates, hfits⟩, htoggle, hbound⟩
    refine ⟨hstarts, ?_, ?_⟩
    · rw [← List.cons_append, List.isChain_append]
      refine ⟨halternates, List.isChain_singleton a, ?_⟩
      intro x hx y hy
      simp only [hlast, Option.mem_def, Option.some.injEq, List.head?_cons] at hx hy
      subst hx hy
      exact htoggle
    · intro front last hearlier
      rw [← List.cons_append, List.prefix_concat_iff] at hearlier
      rcases hearlier with hwhole | hearlier
      · obtain ⟨rfl, hlastEq⟩ := List.append_inj' hwhole rfl
        cases hlastEq
        exact hbound
      · exact hfits front last hearlier

theorem follows_nil_iff (start : Arrival) :
    Follows start [] ↔ start.frame.role = .start ∧ start.frame.payload.size ≤ start.limit := by
  constructor
  · rintro ⟨hstarts, -, hfits⟩
    exact ⟨hstarts, by simpa [joinedPayload] using hfits [] start (List.prefix_refl _)⟩
  · rintro ⟨hstarts, hbound⟩
    refine ⟨hstarts, List.isChain_singleton start, ?_⟩
    intro front last hearlier
    rw [← List.nil_append [start], List.prefix_concat_iff] at hearlier
    rcases hearlier with hwhole | hearlier
    · obtain ⟨rfl, hlast⟩ := List.append_inj' hwhole rfl
      cases hlast
      simpa [joinedPayload] using hbound
    · simp at hearlier

/-! ## What a slot holds -/

/-- Arrivals that end with a start frame and middle frames that follow it. -/
def Pending (arrivals : List Arrival) (start : Arrival) (middles : List Arrival) : Prop :=
  (∃ earlier, arrivals = earlier ++ start :: middles) ∧ Follows start middles ∧
    ∀ a ∈ middles, a.frame.role = .middle

theorem pending_concat_start {arrivals : List Arrival} {a : Arrival} (ha : a.frame.role = .start)
    (start : Arrival) (middles : List Arrival) :
    Pending (arrivals ++ [a]) start middles ↔
      start = a ∧ middles = [] ∧ a.frame.payload.size ≤ a.limit := by
  constructor
  · rintro ⟨⟨earlier, hsplit⟩, hfollows, hmiddles⟩
    rcases List.eq_nil_or_concat middles with rfl | ⟨front, last, rfl⟩
    · obtain ⟨rfl, hlast⟩ := List.append_inj' hsplit rfl
      cases hlast
      exact ⟨rfl, rfl, ((follows_nil_iff _).mp hfollows).2⟩
    · rw [List.concat_eq_append, ← List.cons_append, ← List.append_assoc] at hsplit
      obtain ⟨-, hlast⟩ := List.append_inj' hsplit rfl
      cases hlast
      have hmiddle := hmiddles a (by simp)
      rw [ha] at hmiddle
      cases hmiddle
  · rintro ⟨rfl, rfl, hbound⟩
    exact ⟨⟨arrivals, rfl⟩, (follows_nil_iff _).mpr ⟨ha, hbound⟩, by simp⟩

theorem pending_concat_other {arrivals : List Arrival} {a : Arrival} (ha : a.frame.role ≠ .start)
    (start : Arrival) (middles : List Arrival) :
    Pending (arrivals ++ [a]) start middles ↔
      ∃ front, middles = front ++ [a] ∧ Pending arrivals start front ∧ a.frame.role = .middle ∧
        (joined start front).toggle ≠ a.frame.toggle ∧
          ((joined start front).join a.frame).payload.size ≤ a.limit := by
  constructor
  · rintro ⟨⟨earlier, hsplit⟩, hfollows, hmiddles⟩
    rcases List.eq_nil_or_concat middles with rfl | ⟨front, last, rfl⟩
    · obtain ⟨rfl, hlast⟩ := List.append_inj' hsplit rfl
      cases hlast
      exact absurd hfollows.starts ha
    · rw [List.concat_eq_append] at hsplit hfollows hmiddles ⊢
      rw [← List.cons_append, ← List.append_assoc] at hsplit
      obtain ⟨harrivals, hlast⟩ := List.append_inj' hsplit rfl
      cases hlast
      obtain ⟨hfront, htoggle, hbound⟩ := (follows_concat_iff _ _ _).mp hfollows
      refine ⟨front, rfl, ⟨⟨earlier, harrivals⟩, hfront, ?_⟩, hmiddles _ (by simp), htoggle, hbound⟩
      intro b hb
      exact hmiddles b (List.mem_append_left _ hb)
  · rintro ⟨front, rfl, ⟨⟨earlier, rfl⟩, hfront, hmiddles⟩, hrole, htoggle, hbound⟩
    refine ⟨⟨earlier, by simp⟩, (follows_concat_iff _ _ _).mpr ⟨hfront, htoggle, hbound⟩, ?_⟩
    intro b hb
    rcases List.mem_append.mp hb with hb | hb
    · exact hmiddles b hb
    · rw [List.mem_singleton.mp hb, hrole]

/-- A slot holds exactly the frames of an unfinished transfer at the end of the arrivals. -/
theorem held_eq_some_iff {arrivals : List Arrival}
    (hparts : ∀ a ∈ arrivals, a.frame.role ≠ .single) (g : Frame) :
    held arrivals = some g ↔
      ∃ start middles, Pending arrivals start middles ∧ g = joined start middles := by
  induction arrivals using List.reverseRecOn generalizing g with
  | nil => simp [held, Pending]
  | append_singleton arrivals a ih =>
    have ih := ih fun b hb => hparts b (List.mem_append_left _ hb)
    have ha := hparts a (by simp)
    rw [held_concat]
    by_cases hstart : a.frame.role = .start
    · rw [Slot.advance_of_start _ _ hstart]
      simp only [pending_concat_start hstart]
      constructor
      · intro h
        split at h
        · cases h
        · next hbound =>
          cases h
          exact ⟨a, [], ⟨rfl, rfl, Nat.le_of_not_lt hbound⟩, rfl⟩
      · rintro ⟨start, middles, ⟨rfl, rfl, hbound⟩, rfl⟩
        rw [if_neg (Nat.not_lt.mpr hbound)]
        rfl
    · simp only [pending_concat_other hstart]
      constructor
      · intro h
        cases hheld : held arrivals with
        | none => rw [hheld, Slot.advance_none _ hstart] at h; cases h
        | some buffered =>
          rw [hheld, Slot.advance_some _ _ hstart] at h
          split at h
          · cases h
          · next hcontinues =>
            cases h
            obtain ⟨start, front, hpending, rfl⟩ := (ih buffered).mp hheld
            have hrole : a.frame.role = .middle := by
              cases hrole : a.frame.role <;> simp_all
            simp only [not_or, Nat.not_lt] at hcontinues
            exact ⟨start, front ++ [a],
              ⟨front, rfl, hpending, hrole, hcontinues.1, hcontinues.2.1⟩,
              (joined_concat _ _ _).symm⟩
      · rintro ⟨start, -, ⟨front, rfl, hpending, hrole, htoggle, hbound⟩, rfl⟩
        rw [(ih _).mpr ⟨start, front, hpending, rfl⟩, Slot.advance_some _ _ hstart, joined_concat,
          if_neg]
        simp only [not_or, Nat.not_lt]
        exact ⟨htoggle, hbound, by simp [hrole]⟩

/-- An end frame completes exactly the unfinished transfer that it continues. -/
theorem emit_held_eq_some_iff {arrivals : List Arrival}
    (hparts : ∀ a ∈ arrivals, a.frame.role ≠ .single) (last : Arrival) (g : Frame) :
    Slot.emit last.limit (held arrivals) last.frame = some g ↔
      last.frame.role = .last ∧ ∃ start middles, Pending arrivals start middles ∧
        Follows start (middles ++ [last]) ∧ g = joined start (middles ++ [last]) := by
  rw [Slot.emit.eq_def]
  constructor
  · intro h
    split at h
    · next hlast =>
      obtain ⟨buffered, hheld, hbuffered⟩ := Option.bind_eq_some_iff.mp h
      obtain ⟨start, middles, hpending, rfl⟩ := (held_eq_some_iff hparts _).mp hheld
      split at hbuffered
      · cases hbuffered
      · next hcontinues =>
        cases hbuffered
        obtain ⟨htoggle, hbound⟩ := not_or.mp hcontinues
        exact ⟨hlast, start, middles, hpending,
          (follows_concat_iff _ _ _).mpr ⟨hpending.2.1, htoggle, Nat.le_of_not_lt hbound⟩,
          (joined_concat _ _ _).symm⟩
    · cases h
  · rintro ⟨hlast, start, middles, hpending, hfollows, rfl⟩
    obtain ⟨-, htoggle, hbound⟩ := (follows_concat_iff _ _ _).mp hfollows
    rw [if_pos hlast, (held_eq_some_iff hparts _).mpr ⟨start, middles, hpending, rfl⟩,
      Option.bind_some, if_neg (not_or.mpr ⟨htoggle, Nat.not_lt.mpr hbound⟩), joined_concat]

/-! ## Runs -/

/-- What a key has seen was stored under this key, as a part of a longer transfer. -/
theorem mem_arrivals {limit : Nat} {key : TransferKey} {events : List Event} {a : Arrival}
    (ha : a ∈ (history limit key events).arrivals) :
    Event.store a.frame ∈ events ∧ a.frame.key = key ∧ a.frame.role ≠ .single := by
  induction events using List.reverseRecOn with
  | nil => cases ha
  | append_singleton earlier event ih =>
    rw [history, List.foldl_append] at ha
    have hkept : a ∈ (history limit key earlier).arrivals →
        Event.store a.frame ∈ earlier ++ [event] ∧ a.frame.key = key ∧ a.frame.role ≠ .single := by
      intro h
      obtain ⟨hstored, hrest⟩ := ih h
      exact ⟨List.mem_append_left _ hstored, hrest⟩
    cases event with
    | store f =>
      simp only [List.foldl_cons, List.foldl_nil, History.step] at ha
      split at ha
      · exact hkept ha
      · next hpart =>
        obtain ⟨hrole, hkey⟩ := not_or.mp hpart
        rcases List.mem_append.mp ha with ha | ha
        · exact hkept ha
        · rw [List.mem_singleton.mp ha]
          exact ⟨by simp, not_not.mp hkey, hrole⟩
    | setLimit limit => exact hkept ha
    | clear => cases ha

theorem arrivals_ne_single (limit : Nat) (key : TransferKey) (events : List Event) :
    ∀ a ∈ (history limit key events).arrivals, a.frame.role ≠ .single := by
  intro a ha
  exact (mem_arrivals ha).2.2

/-- After any run, the limit and each slot are those of the histories. -/
theorem run_eq_history (limit : Nat) (key : TransferKey) (events : List Event) :
    (run { limit } events).limit = (history limit key events).limit ∧
      (run { limit } events).slot? key = held (history limit key events).arrivals := by
  suffices general : ∀ (s : Reassembly) (h : History), s.Sound → s.limit = h.limit →
      s.slot? key = held h.arrivals →
      (run s events).limit = (events.foldl (History.step key) h).limit ∧
        (run s events).slot? key = held (events.foldl (History.step key) h).arrivals by
    exact general { limit } { limit } (sound_empty limit) rfl rfl
  induction events with
  | nil => intro s h hs hlimit hslot; exact ⟨hlimit, hslot⟩
  | cons event rest ih =>
    intro s h hs hlimit hslot
    apply ih (s.step event) (h.step key event) (sound_step hs event)
    · cases event with
      | store f =>
        rw [step, limit_store hs, hlimit, History.step]
        split <;> rfl
      | setLimit limit => rfl
      | clear => exact hlimit
    · cases event with
      | store f =>
        rw [step, slot?_store hs, History.step]
        split
        · exact hslot
        · rw [held_concat, hslot, hlimit]
      | setLimit limit => exact hslot
      | clear => rfl

/--
A part of a longer transfer completes one exactly if it is an end frame that continues the end of
its key's history from a start frame on, and that transfer is all of them joined.
-/
theorem result_store_run_iff (limit : Nat) (events : List Event) {f : Frame}
    (hf : f.role ≠ .single) (g : Frame) :
    ((run { limit } events).store f).result = .ok (some g) ↔
      f.role = .last ∧ ∃ earlier start middles,
        (history limit f.key events).arrivals = earlier ++ start :: middles ∧
        (∀ a ∈ middles, a.frame.role = .middle) ∧
        Follows start (middles ++ [⟨f, (history limit f.key events).limit⟩]) ∧
        g = { start.frame with
          isStart := false
          payload := joinedPayload ((start :: middles).map Arrival.frame ++ [f])
          toggle := f.toggle
          role := .last
          completed := true } := by
  have hs : (run { limit } events).Sound := sound_run (sound_empty limit) events
  obtain ⟨hlimit, hslot⟩ := run_eq_history limit f.key events
  rw [result_store hs hf, hlimit, hslot, Except.ok.injEq,
    emit_held_eq_some_iff (arrivals_ne_single limit f.key events)
      ⟨f, (history limit f.key events).limit⟩ g]
  constructor
  · rintro ⟨hlast, start, middles, ⟨⟨earlier, hsplit⟩, -, hmiddles⟩, hfollows, rfl⟩
    have hrole : f.role = .last := hlast
    refine ⟨hrole, earlier, start, middles, hsplit, hmiddles, hfollows, ?_⟩
    rw [joined_concat_eq]
    simp [hrole]
  · rintro ⟨hlast, earlier, start, middles, hsplit, hmiddles, hfollows, rfl⟩
    refine ⟨hlast, start, middles, ⟨⟨earlier, hsplit⟩, ?_, hmiddles⟩, hfollows, ?_⟩
    · exact ((follows_concat_iff _ _ _).mp hfollows).1
    · rw [joined_concat_eq]
      simp [hlast]

/--
What storing a frame comes to after any run.  A frame that is a transfer of its own passes through
and changes nothing.  Any other frame never fails; it completes a transfer exactly if it is an end
frame that continues a start frame and middle frames at the end of its key's history, each with a
new toggle and within the limit of its time, and that transfer is all of them joined.
-/
theorem store_run_iff (limit : Nat) (events : List Event) (f : Frame) :
    let s := run { limit } events
    let past := history limit f.key events
    (f.role = .single → (s.store f).result = .ok (some f) ∧ (s.store f).state = s) ∧
    (f.role ≠ .single →
      (∃ completed, (s.store f).result = .ok completed) ∧
      ∀ g, (s.store f).result = .ok (some g) ↔
        f.role = .last ∧ ∃ earlier start middles,
          past.arrivals = earlier ++ start :: middles ∧
          (∀ a ∈ middles, a.frame.role = .middle) ∧
          Follows start (middles ++ [⟨f, past.limit⟩]) ∧
          g = { start.frame with
            isStart := false
            payload := joinedPayload ((start :: middles).map Arrival.frame ++ [f])
            toggle := f.toggle
            role := .last
            completed := true }) := by
  intro s past
  have hs : s.Sound := sound_run (sound_empty limit) events
  refine ⟨fun hsingle => ?_, fun hpart => ⟨⟨_, result_store hs hpart⟩, ?_⟩⟩
  · rw [store_of_single hsingle]
    exact ⟨rfl, rfl⟩
  · exact fun g => result_store_run_iff limit events hpart g

end Reassembly

end BusSchema
