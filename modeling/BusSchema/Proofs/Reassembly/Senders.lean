import BusSchema.Proofs.Reassembly.History

/-!
# Whose frames are joined

A slot is told apart by the transfer id and the subject id and by nothing else.  A completed
transfer consists of all parts that its key has seen since the start frame, and it has the address
of the start frame (`parts_of_store_run`).  So the parts come from one sender if no other sender
uses the key in the meantime, and they can come from two if one does (`joined_of_two_sources`).
-/

namespace BusSchema

/-- Where a frame comes from, and which side of which exchange it belongs to. -/
structure Sender where
  source : Nat
  isService : Bool
  isRequest : Bool
  destination : Nat
deriving DecidableEq

/-- The sender of a frame. -/
def Frame.sender (f : Frame) : Sender := ⟨f.source, f.isService, f.isRequest, f.destination⟩

namespace Reassembly

/--
A transfer that a frame completes has the key and the sender of its start frame, and its parts are
everything that the key has seen from the start frame on.  They have one sender exactly if the
parts behind the start frame have the sender of the start frame, and in particular if all parts
that were ever stored under the key have the same one.
-/
theorem parts_of_store_run (limit : Nat) (events : List Event) {f g : Frame}
    (hf : f.role ≠ .single) (h : ((run { limit } events).store f).result = .ok (some g)) :
    ∃ earlier start middles,
      (history limit f.key events).arrivals = earlier ++ start :: middles ∧
      start.frame.role = .start ∧ (∀ a ∈ middles, a.frame.role = .middle) ∧ f.role = .last ∧
      let behind := middles.map Arrival.frame ++ [f]
      let parts := start.frame :: behind
      g.payload = joinedPayload parts ∧ g.sender = start.frame.sender ∧
      (∀ p ∈ parts, p.key = g.key ∧ (Event.store p ∈ events ∨ p = f)) ∧
      ((∀ p ∈ parts, p.sender = g.sender) ↔ ∀ p ∈ behind, p.sender = start.frame.sender) ∧
      ((∀ p, Event.store p ∈ events → p.role ≠ .single → p.key = f.key → p.sender = f.sender) →
        ∀ p ∈ parts, p.sender = g.sender) := by
  obtain ⟨hlast, earlier, start, middles, hsplit, hmiddles, hfollows, rfl⟩ :=
    (result_store_run_iff limit events hf g).mp h
  -- All parts but the last one have arrived before, so they are multi-frame parts of this key.
  have hseen : ∀ a ∈ start :: middles,
      Event.store a.frame ∈ events ∧ a.frame.key = f.key ∧ a.frame.role ≠ .single := by
    intro a ha
    have harrived : a ∈ (history limit f.key events).arrivals := by
      rw [hsplit]
      exact List.mem_append_right earlier ha
    exact mem_arrivals harrived
  have hstart := hseen start List.mem_cons_self
  have hparts : ∀ p ∈ start.frame :: (middles.map Arrival.frame ++ [f]),
      p.key = f.key ∧ (Event.store p ∈ events ∧ p.role ≠ .single ∨ p = f) := by
    intro p hp
    rw [← List.cons_append, ← List.map_cons, List.mem_append, List.mem_singleton] at hp
    rcases hp with hp | rfl
    · obtain ⟨a, ha, rfl⟩ := List.mem_map.mp hp
      obtain ⟨hstored, hkey, hrole⟩ := hseen a ha
      exact ⟨hkey, Or.inl ⟨hstored, hrole⟩⟩
    · exact ⟨rfl, Or.inr rfl⟩
  refine ⟨earlier, start, middles, hsplit, hfollows.starts, hmiddles, hlast, rfl, rfl, ?_, ?_, ?_⟩
  · intro p hp
    obtain ⟨hkey, hstored⟩ := hparts p hp
    exact ⟨hkey.trans hstart.2.1.symm, hstored.imp And.left id⟩
  · exact ⟨fun hall p hp => hall p (List.mem_cons_of_mem _ hp),
      fun hbehind => List.forall_mem_cons.mpr ⟨rfl, hbehind⟩⟩
  · intro hone
    have hsame : ∀ p ∈ start.frame :: (middles.map Arrival.frame ++ [f]), p.sender = f.sender := by
      intro p hp
      obtain ⟨hkey, ⟨hstored, hrole⟩ | rfl⟩ := hparts p hp
      · exact hone p hstored hrole hkey
      · rfl
    intro p hp
    exact (hsame p hp).trans (hsame start.frame List.mem_cons_self).symm

/-- Two senders at the same time, told apart by their transfer ids. -/
theorem parts_of_store_run_beside_other_sender :
    let start := { Frame.message 413 1 1 with isEnd := false, role := .start, payload := #[1] }
    let other := { start with source := 2, transferId := 7, payload := #[9] }
    let last := { start with isStart := false, toggle := false, role := .last, payload := #[2] }
    let g := { last with payload := #[1, 2], completed := true }
    last.role ≠ .single ∧
      ((run {} [.store start, .store other]).store last).result = .ok (some g) ∧
      ∃ parts, g.payload = joinedPayload parts ∧ ∀ p ∈ parts, p.key = g.key ∧ p.sender = g.sender := by
  intro start other last g
  have hstored : ((run {} [.store start, .store other]).store last).result = .ok (some g) := by
    decide +kernel
  have hkeys : ∀ p, Event.store p ∈ [Event.store start, Event.store other] → p.role ≠ .single →
      p.key = last.key → p.sender = last.sender := by
    intro p hp _ hkey
    simp only [List.mem_cons, Event.store.injEq, List.not_mem_nil, or_false] at hp
    rcases hp with rfl | rfl
    · rfl
    · exact absurd hkey (by decide)
  obtain ⟨-, first, middles, -, -, -, -, hpayload, -, hparts, -, hone⟩ :=
    parts_of_store_run _ _ (by decide) hstored
  refine ⟨by decide, hstored, _, hpayload, fun p hp => ?_⟩
  exact ⟨(hparts p hp).1, hone hkeys p hp⟩

/-- A start frame of one node and an end frame of another become one transfer of the first. -/
theorem joined_of_two_sources :
    ∃ start last g : Frame,
      Frame.decode 73506049 #[1, 161] 0 = .ok start ∧
      Frame.decode 73506050 #[2, 65] 0 = .ok last ∧
      last.role ≠ .single ∧
      ((run {} [.store start]).store last).result = .ok (some g) ∧
      g.payload = start.payload ++ last.payload ∧
      g.source = start.source ∧ last.source ≠ g.source := by
  exact ⟨_, _, _, rfl, rfl, by decide, rfl, by decide, by decide, by decide⟩

end Reassembly

end BusSchema
