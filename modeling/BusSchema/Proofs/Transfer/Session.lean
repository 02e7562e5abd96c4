import BusSchema.Proofs.Reassembly.Invariant
import BusSchema.Proofs.Results
import BusSchema.Proofs.Transfer.Delivery

/-!
# Sessions of a receiver

Besides deliveries, a receiver is given completed frames to read and catalogues to go on with.
`Receiver.steps` is what a sequence of such inputs comes to.  An input first completes a frame or
does not, and a completed frame is then read with the current catalogue (`result_respond`).
-/

namespace BusSchema

namespace Reassembly

theorem Tidy.sound {s : Reassembly} (hs : s.Tidy) : s.Sound := by
  intro key held hheld
  exact (hs.unfinished _ (mem_slots_of_slot? hheld)).ne_single

/-- A completed transfer is a frame of its own, or leaves its slot with the last frame. -/
theorem completed_of_store {s : Reassembly} (hs : s.Tidy) {f g : Frame}
    (h : (s.store f).result = .ok (some g)) :
    (f.role = .single ∧ g = f ∧ s.store f = ⟨.ok (some g), s, []⟩) ∨
      (f.role = .last ∧ (s.slot? f.key).isSome ∧
        s.store f = ⟨.ok (some g), s.drop f.key, []⟩) := by
  by_cases hsingle : f.role = .single
  · rw [store_of_single hsingle] at h ⊢
    cases h
    exact Or.inl ⟨hsingle, rfl, rfl⟩
  have hemit : Slot.emit s.limit (s.slot? f.key) f = some g := by
    have hresult := result_store hs.sound hsingle
    rw [h] at hresult
    exact (Except.ok.inj hresult).symm
  have hlast : f.role = .last := by
    by_contra hne
    rw [Slot.emit_of_ne_last _ _ hne] at hemit
    cases hemit
  have hslot : (s.slot? f.key).isSome := by
    rw [Slot.emit, if_pos hlast] at hemit
    obtain ⟨buffered, hbuffered, -⟩ := Option.bind_eq_some_iff.mp hemit
    rw [hbuffered, Option.isSome_some]
  refine Or.inr ⟨hlast, hslot, ?_⟩
  have hhandled := handled_store hs f
  generalize s.store f = stored at h hhandled ⊢
  cases hhandled with
  | passed hrole => exact absurd hrole hsingle
  | ignored => cases h
  | dropped => cases h
  | held => cases h
  | completed =>
    cases h
    rfl

end Reassembly

namespace Receiver

/-- What a receiver can be given. -/
inductive Input
  /-- A frame as it comes from the bus. -/
  | receive (delivery : Delivery)
  /-- A frame that is complete already. -/
  | complete (f : Frame)
  /-- The catalogue to go on with. -/
  | reload (catalogue : Catalogue)

variable [HalfConversion]

/-- Handles an input. -/
def respond (r : Receiver) : Input → Received
  | .receive d => r.deliver d
  | .complete f => r.complete f
  | .reload catalogue => ⟨.ok none, r.reload catalogue, []⟩

/-- An input and the receiver that it is given to. -/
structure Step where
  before : Receiver
  input : Input

/-- What a step comes to. -/
def Step.outcome (step : Step) : Received := step.before.respond step.input

/-- The receiver after a sequence of inputs. -/
def after (r : Receiver) (inputs : List Input) : Receiver :=
  inputs.foldl (fun r input => (r.respond input).state) r

/-- The steps that a sequence of inputs comes to. -/
def steps (r : Receiver) : List Input → List Step
  | [] => []
  | input :: rest => ⟨r, input⟩ :: steps (r.respond input).state rest

theorem after_append (r : Receiver) (first second : List Input) :
    r.after (first ++ second) = (r.after first).after second :=
  List.foldl_append

theorem after_concat (r : Receiver) (inputs : List Input) (input : Input) :
    r.after (inputs ++ [input]) = ((r.after inputs).respond input).state :=
  after_append r inputs [input]

theorem steps_append (r : Receiver) (first second : List Input) :
    r.steps (first ++ second) = r.steps first ++ (r.after first).steps second := by
  induction first generalizing r with
  | nil => rfl
  | cons input rest ih =>
    rw [List.cons_append, steps, steps, ih, List.cons_append]
    rfl

theorem steps_concat (r : Receiver) (inputs : List Input) (input : Input) :
    r.steps (inputs ++ [input]) = r.steps inputs ++ [⟨r.after inputs, input⟩] :=
  steps_append r inputs [input]

/-! ## Completed frames -/

/-- The frame that an input completes, if it completes one; or why it is refused at once. -/
def completedBy (r : Receiver) : Input → Except FrameError (Option Frame)
  | .receive d => do
    let f ← Frame.decode d.identifier d.bytes d.timestamp
    (r.reassembly.store f).result
  | .complete f => .ok (some f)
  | .reload _ => .ok none

/-- Nothing comes of an input but what the frame that it completes is read as. -/
theorem result_respond (r : Receiver) (input : Input) :
    (r.respond input).result =
      r.completedBy input >>= fun completed => completed.elim (.ok none) r.catalogue.read := by
  cases input with
  | receive d =>
    rw [respond, completedBy]
    cases hdecode : Frame.decode d.identifier d.bytes d.timestamp with
    | error e =>
      rw [deliver_of_error hdecode]
      rfl
    | ok f =>
      rw [deliver_of_ok hdecode]
      exact result_accept r f
  | complete f => exact result_complete r f
  | reload catalogue => rfl

theorem result_of_completedBy {r : Receiver} {input : Input} {f : Frame}
    (h : r.completedBy input = .ok (some f)) : (r.respond input).result = r.catalogue.read f := by
  rw [result_respond, h]
  rfl

/-! ## The slots -/

omit [HalfConversion] in
theorem tidy_ofCatalogue (catalogue : Catalogue) : (ofCatalogue catalogue).reassembly.Tidy :=
  Reassembly.tidy_empty _

theorem tidy_respond {r : Receiver} (hr : r.reassembly.Tidy) (input : Input) :
    (r.respond input).state.reassembly.Tidy := by
  cases input with
  | receive d =>
    rw [respond]
    cases hdecode : Frame.decode d.identifier d.bytes d.timestamp with
    | error e =>
      rw [deliver_of_error hdecode]
      exact hr
    | ok f =>
      rw [deliver_of_ok hdecode, (state_accept r f).2]
      exact Reassembly.tidy_step hr (.store f)
  | complete f =>
    rw [respond, (state_complete r f).2]
    exact hr
  | reload catalogue => exact Reassembly.tidy_step hr (.setLimit catalogue.transferLimit)

theorem tidy_after {r : Receiver} (hr : r.reassembly.Tidy) (inputs : List Input) :
    (r.after inputs).reassembly.Tidy := by
  induction inputs generalizing r with
  | nil => exact hr
  | cons input rest ih => exact ih (tidy_respond hr input)

theorem tidy_of_mem_steps {r : Receiver} (hr : r.reassembly.Tidy) {inputs : List Input}
    {step : Step} (hstep : step ∈ r.steps inputs) : step.before.reassembly.Tidy := by
  induction inputs generalizing r with
  | nil => cases hstep
  | cons input rest ih =>
    rcases List.mem_cons.mp hstep with rfl | hstep
    · exact hr
    · exact ih (tidy_respond hr input) hstep

end Receiver

end BusSchema
