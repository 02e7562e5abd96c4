import BusSchema.Proofs.Reassembly.Slot
import BusSchema.Transfer.Receiver

/-!
# What a receiver gets

A delivery is a frame that may complete a transfer, and a completed transfer is read with the
catalogue (`result_accept`).  A receiver that is driven by deliveries only goes on serving its
catalogue (`serves_run`), and those that are foreign to a transfer leave the slot of that transfer
alone (`slot?_run_of_foreign`).
-/

namespace BusSchema

namespace Catalogue

variable [HalfConversion]

/-- The transfer that a completed frame is read as, if there is a layout to read it with. -/
def read (catalogue : Catalogue) (f : Frame) : Except FrameError (Option Transfer) :=
  match catalogue.layoutOf? f with
  | none => .ok none
  | some layout =>
    (f.parse layout.channels).map fun values => some (Receiver.transferOf f layout.name values)

theorem read_of_none {catalogue : Catalogue} {f : Frame} (h : catalogue.layoutOf? f = none) :
    catalogue.read f = .ok none := by
  rw [read, h]

theorem read_of_some {catalogue : Catalogue} {f : Frame} {layout : NamedLayout}
    (h : catalogue.layoutOf? f = some layout) :
    catalogue.read f =
      (f.parse layout.channels).map fun values =>
        some (Receiver.transferOf f layout.name values) := by
  rw [read, h]

end Catalogue

namespace Receiver

/-- A frame as it comes from the bus. -/
structure Delivery where
  identifier : Nat
  bytes : Bytes
  timestamp : Int

/-- The receiver reads with a catalogue and limits transfers as the catalogue says. -/
structure Serves (r : Receiver) (catalogue : Catalogue) : Prop where
  knows : r.catalogue = catalogue
  limit : r.reassembly.limit = catalogue.transferLimit
  sound : r.reassembly.Sound

/-- A delivery is foreign to a transfer if it is not one of several frames with its key. -/
def Delivery.Foreign (key : TransferKey) (d : Delivery) : Prop :=
  ∀ f, Frame.decode d.identifier d.bytes d.timestamp = .ok f → f.role = .single ∨ f.key ≠ key

theorem serves_ofCatalogue (catalogue : Catalogue) : (ofCatalogue catalogue).Serves catalogue :=
  ⟨rfl, rfl, Reassembly.sound_empty _⟩

theorem state_reportUnknown (r : Receiver) (f : Frame) :
    (r.reportUnknown f).state.catalogue = r.catalogue ∧
      (r.reportUnknown f).state.reassembly = r.reassembly := by
  unfold reportUnknown
  split
  · split <;> exact ⟨rfl, rfl⟩
  · split <;> exact ⟨rfl, rfl⟩

theorem result_reportUnknown (r : Receiver) (f : Frame) :
    (r.reportUnknown f).result = .ok none := by
  unfold reportUnknown
  split <;> split <;> rfl

variable [HalfConversion]

/-- Handles a delivery. -/
def deliver (r : Receiver) (d : Delivery) : Received := r.receive d.identifier d.bytes d.timestamp

/-- The receiver after a sequence of deliveries. -/
def run (r : Receiver) (deliveries : List Delivery) : Receiver :=
  deliveries.foldl (fun r d => (r.deliver d).state) r

theorem run_append (r : Receiver) (first second : List Delivery) :
    r.run (first ++ second) = (r.run first).run second :=
  List.foldl_append

@[simp]
theorem run_singleton (r : Receiver) (d : Delivery) : r.run [d] = (r.deliver d).state := rfl

theorem deliver_of_error {r : Receiver} {d : Delivery} {e : FrameError}
    (h : Frame.decode d.identifier d.bytes d.timestamp = .error e) :
    r.deliver d = ⟨.error e, r, []⟩ := by
  rw [deliver, receive, h]

theorem deliver_of_ok {r : Receiver} {d : Delivery} {f : Frame}
    (h : Frame.decode d.identifier d.bytes d.timestamp = .ok f) : r.deliver d = r.accept f := by
  rw [deliver, receive, h]

theorem state_complete (r : Receiver) (f : Frame) :
    (r.complete f).state.catalogue = r.catalogue ∧
      (r.complete f).state.reassembly = r.reassembly := by
  unfold complete
  split
  · exact state_reportUnknown r f
  · exact ⟨rfl, rfl⟩

/-- Handling a frame stores it; reading the values of a transfer changes neither part. -/
theorem state_accept (r : Receiver) (f : Frame) :
    (r.accept f).state.catalogue = r.catalogue ∧
      (r.accept f).state.reassembly = (r.reassembly.store f).state := by
  unfold accept
  dsimp only
  split
  · exact ⟨rfl, rfl⟩
  · exact ⟨rfl, rfl⟩
  · exact state_complete _ _

theorem result_complete (r : Receiver) (f : Frame) :
    (r.complete f).result = r.catalogue.read f := by
  unfold complete
  cases hlayout : r.catalogue.layoutOf? f with
  | none => rw [Catalogue.read_of_none hlayout, result_reportUnknown]
  | some layout => rw [Catalogue.read_of_some hlayout]

/-- What a frame comes to is what the transfer that it completes is read as, if it completes one. -/
theorem result_accept (r : Receiver) (f : Frame) :
    (r.accept f).result =
      (r.reassembly.store f).result >>= fun completed =>
        completed.elim (.ok none) r.catalogue.read := by
  unfold accept
  dsimp only
  split
  · next e h => rw [h]; rfl
  · next h => rw [h]; rfl
  · next completed h => rw [h]; exact result_complete _ _

theorem accept_of_none {r : Receiver} {f : Frame} (h : (r.reassembly.store f).result = .ok none) :
    (r.accept f).result = .ok none := by
  rw [result_accept, h]
  rfl

theorem accept_of_some {r : Receiver} {f completed : Frame} {layout : NamedLayout}
    (h : (r.reassembly.store f).result = .ok (some completed))
    (hlayout : r.catalogue.layoutOf? completed = some layout) :
    (r.accept f).result =
      (completed.parse layout.channels).map fun values =>
        some (transferOf completed layout.name values) := by
  rw [result_accept, h, ← Catalogue.read_of_some hlayout]
  rfl

theorem serves_deliver {r : Receiver} {catalogue : Catalogue} (hr : r.Serves catalogue)
    (d : Delivery) : (r.deliver d).state.Serves catalogue := by
  cases hdecode : Frame.decode d.identifier d.bytes d.timestamp with
  | error e =>
    rw [deliver_of_error hdecode]
    exact hr
  | ok f =>
    rw [deliver_of_ok hdecode]
    obtain ⟨hcatalogue, hreassembly⟩ := state_accept r f
    refine ⟨hcatalogue.trans hr.knows, ?_, ?_⟩
    · rw [hreassembly, Reassembly.limit_store hr.sound, hr.limit]
    · rw [hreassembly]
      exact Reassembly.sound_step hr.sound (.store f)

theorem serves_run {r : Receiver} {catalogue : Catalogue} (hr : r.Serves catalogue)
    (deliveries : List Delivery) : (r.run deliveries).Serves catalogue := by
  induction deliveries generalizing r with
  | nil => exact hr
  | cons d rest ih => exact ih (serves_deliver hr d)

theorem slot?_deliver_of_foreign {r : Receiver} {catalogue : Catalogue} (hr : r.Serves catalogue)
    {key : TransferKey} {d : Delivery} (hd : d.Foreign key) :
    (r.deliver d).state.reassembly.slot? key = r.reassembly.slot? key := by
  cases hdecode : Frame.decode d.identifier d.bytes d.timestamp with
  | error e => rw [deliver_of_error hdecode]
  | ok f =>
    have hforeign := hd f hdecode
    rw [deliver_of_ok hdecode, (state_accept r f).2, Reassembly.slot?_store hr.sound,
      if_pos hforeign]

theorem slot?_run_of_foreign {r : Receiver} {catalogue : Catalogue} (hr : r.Serves catalogue)
    {key : TransferKey} {deliveries : List Delivery}
    (hforeign : ∀ d ∈ deliveries, d.Foreign key) :
    (r.run deliveries).reassembly.slot? key = r.reassembly.slot? key := by
  induction deliveries generalizing r with
  | nil => rfl
  | cons d rest ih =>
    obtain ⟨hd, hrest⟩ := List.forall_mem_cons.mp hforeign
    exact (ih (serves_deliver hr d) hrest).trans (slot?_deliver_of_foreign hr hd)

end Receiver

end BusSchema
