import BusSchema.Proofs.Layout.Lookup
import BusSchema.Proofs.Transfer.Addressing
import BusSchema.Proofs.Transfer.Delivery

/-!
# Which layout a frame is received under

Subject ids are 32-bit numbers in file names, and 13 or 9 bits in identifiers.  A frame is received
under the rest of its id modulo the number of patterns (`Frame.decode_identifier`).  So the layouts
whose ids fit are told apart on the bus, whatever else their frames hold
(`Catalogue.routes_of_ofTable`), and an id that does not fit can be that of another layout
(`Catalogue.message_received_as_other`).
-/

namespace BusSchema

/-- What the frames of a layout have in common. -/
structure Rule where
  isService : Bool
  subjectId : Nat
  name : String
deriving DecidableEq

namespace Rule

/-- The number of subject ids that an identifier tells apart. -/
def idCount (isService : Bool) : Nat := if isService then 512 else 8192

/-- The id fits into an identifier. -/
def Fits (rule : Rule) : Prop := rule.subjectId < idCount rule.isService

instance (rule : Rule) : Decidable rule.Fits :=
  inferInstanceAs (Decidable (rule.subjectId < idCount rule.isService))

/-- The frame has the kind and the id of the rule. -/
structure Sends (rule : Rule) (f : Frame) : Prop where
  kind : f.isService = rule.isService
  subject : f.subjectId = rule.subjectId

end Rule

namespace Frame

/-! ## Identifiers of all frames -/

/-- The frame with all numbers cut to their fields. -/
def cut (f : Frame) : Frame :=
  { f with
    subjectId := f.subjectId % Rule.idCount f.isService
    source := f.source % 128
    destination := f.destination % 128
    priority := f.priority % 8
    transferId := f.transferId % 32 }

theorem addressable_cut (f : Frame) : f.cut.Addressable := by
  refine ⟨?_, Nat.mod_lt _ (by decide), Nat.mod_lt _ (by decide), Nat.mod_lt _ (by decide),
    Nat.mod_lt _ (by decide)⟩
  unfold cut Rule.idCount
  split
  · exact Nat.le_of_lt_succ (Nat.mod_lt _ (by decide))
  · exact Nat.le_of_lt_succ (Nat.mod_lt _ (by decide))

/-- The frame is sent with the identifier of the frame that is cut. -/
theorem identifier_cut (f : Frame) : f.cut.identifier = f.identifier := by
  simp only [identifier, cut, Rule.idCount, BitField.put, Identifier.source, Identifier.priority,
    Identifier.destination, Identifier.serviceId, Identifier.messageId, twoPow, Nat.pow_eq]
  by_cases hservice : f.isService = true <;> simp [hservice]

theorem wireBytes_cut (f : Frame) : f.cut.wireBytes = f.wireBytes := by
  simp [wireBytes, tailByte, cut, BitField.put, Tail.transferId, twoPow, Nat.pow_eq]

/-- A frame with the flags of a transfer of its own is received, with its numbers cut. -/
theorem decode_wireBytes_cut (f : Frame) (timestamp : Int) :
    decode f.identifier f.wireBytes timestamp =
      (FrameRole.classify f.isStart f.isEnd f.toggle).map fun role =>
        f.cut.received role timestamp := by
  have hcut := decode_wireBytes f.addressable_cut timestamp
  rwa [identifier_cut, wireBytes_cut] at hcut

/-- Whatever bytes come with an identifier, the kind and the cut id of its frame are received. -/
theorem decode_identifier {f g : Frame} {bytes : Bytes} {timestamp : Int}
    (h : decode f.identifier bytes timestamp = .ok g) :
    g.isService = f.isService ∧ g.subjectId = f.subjectId % Rule.idCount f.isService ∧
      (f.isService = true → g.isRequest = f.isRequest) := by
  unfold decode at h
  split at h
  · cases h
  obtain ⟨role, -, rfl⟩ := map_eq_ok_iff.mp h
  have hcut := f.addressable_cut
  have hcutSubject : f.cut.subjectId = f.subjectId % Rule.idCount f.isService := rfl
  have hcutRequest : f.cut.isRequest = f.isRequest := rfl
  rw [← identifier_cut, ← hcutSubject, ← hcutRequest]
  unfold assemble
  cases hservice : f.isService with
  | true =>
    obtain ⟨hflag, hsubject, hrequest, -⟩ := get_identifier_service hcut hservice
    simp [hflag, hsubject, hrequest]
  | false =>
    obtain ⟨hflag, hsubject, -⟩ := get_identifier_message hcut hservice
    simp [hflag, hsubject]

/-- No identifier is refused. -/
theorem exists_decode (identifier : Nat) : ∃ g, decode identifier #[224] 0 = .ok g := ⟨_, rfl⟩

end Frame

namespace Catalogue

/-- The rules of all layouts. -/
def rules (catalogue : Catalogue) : List Rule :=
  catalogue.messages.map (fun m => ⟨false, m.subjectId, m.name⟩) ++
    catalogue.services.map fun s => ⟨true, s.subjectId, s.name⟩

/-- The layout of a frame depends on its kind, its id and the side of a service only. -/
theorem layoutOf?_congr (catalogue : Catalogue) {f g : Frame} (hkind : g.isService = f.isService)
    (hsubject : g.subjectId = f.subjectId)
    (hrequest : f.isService = true → g.isRequest = f.isRequest) :
    catalogue.layoutOf? g = catalogue.layoutOf? f := by
  unfold layoutOf?
  rw [hkind, hsubject]
  split
  · next hservice => rw [hrequest hservice]
  · rfl

/-- A frame of a rule has a layout with the name of the rule. -/
theorem Ordered.layoutOf?_of_sends {catalogue : Catalogue} (h : catalogue.Ordered) {rule : Rule}
    (hrule : rule ∈ catalogue.rules) {f : Frame} (hf : rule.Sends f) :
    ∃ layout, catalogue.layoutOf? f = some layout ∧ layout.name = rule.name := by
  unfold layoutOf?
  rw [hf.kind, hf.subject]
  rcases List.mem_append.mp hrule with hrule | hrule
  · obtain ⟨m, hm, rfl⟩ := List.mem_map.mp hrule
    rw [if_neg (by simp), h.message?_eq_some_iff.mpr ⟨hm, rfl⟩]
    exact ⟨_, rfl, rfl⟩
  · obtain ⟨s, hs, rfl⟩ := List.mem_map.mp hrule
    rw [if_pos rfl, h.service?_eq_some_iff.mpr ⟨hs, rfl⟩]
    exact ⟨_, rfl, rfl⟩

/-- A kind and an id belong to one rule. -/
theorem Ordered.rule_unique {catalogue : Catalogue} (h : catalogue.Ordered) {rule other : Rule}
    (hrule : rule ∈ catalogue.rules) (hother : other ∈ catalogue.rules) {f : Frame}
    (hf : rule.Sends f) (hotherSends : other.Sends f) : rule = other := by
  obtain ⟨layout, hlayout, hname⟩ := h.layoutOf?_of_sends hrule hf
  obtain ⟨otherLayout, hotherLayout, hotherName⟩ := h.layoutOf?_of_sends hother hotherSends
  cases hlayout.symm.trans hotherLayout
  rw [Rule.mk.injEq]
  exact ⟨hf.kind.symm.trans hotherSends.kind, hf.subject.symm.trans hotherSends.subject,
    hname.symm.trans hotherName⟩

end Catalogue

/-- A rule whose id fits sends nothing that is received as another id, or as another kind. -/
theorem Rule.Fits.sends_decoded {rule : Rule} (hfits : rule.Fits) {f g : Frame} (hf : rule.Sends f)
    {bytes : Bytes} {timestamp : Int} (h : Frame.decode f.identifier bytes timestamp = .ok g) :
    rule.Sends g := by
  obtain ⟨hkind, hsubject, -⟩ := Frame.decode_identifier h
  rw [hf.kind, hf.subject] at hsubject
  exact ⟨hkind.trans hf.kind, hsubject.trans (Nat.mod_eq_of_lt hfits)⟩

/-! ## Receiving -/

/-- What holds of all frames that a slot sees, and of what is joined to such frames, it keeps. -/
theorem Slot.forall_mem_advance {P : Frame → Prop} (hjoin : ∀ f next, P f → P (f.join next))
    (limit : Nat) {held : Option Frame} (hheld : ∀ g ∈ held, P g) {f : Frame} (hf : P f) :
    ∀ g ∈ advance limit held f, P g := by
  intro g hg
  unfold advance at hg
  split at hg
  · split at hg
    · cases hg
    · cases hg
      exact hf
  · split at hg
    · cases hg
    · next buffered =>
      split at hg
      · cases hg
      · cases hg
        exact hjoin buffered f (hheld buffered rfl)

namespace Receiver

variable [HalfConversion]

theorem forall_mem_slot?_run {catalogue : Catalogue} {P : Frame → Prop} {key : TransferKey}
    (hjoin : ∀ f next, P f → P (f.join next)) {deliveries : List Delivery}
    (hdeliveries : ∀ d ∈ deliveries, ∀ g, Frame.decode d.identifier d.bytes d.timestamp = .ok g →
      g.role ≠ .single → g.key = key → P g) {r : Receiver} (hr : r.Serves catalogue)
    (hheld : ∀ g ∈ r.reassembly.slot? key, P g) :
    ∀ g ∈ (r.run deliveries).reassembly.slot? key, P g := by
  induction deliveries generalizing r with
  | nil => exact hheld
  | cons d rest ih =>
    obtain ⟨hd, hrest⟩ := List.forall_mem_cons.mp hdeliveries
    refine ih hrest (serves_deliver hr d) ?_
    show ∀ g ∈ (r.deliver d).state.reassembly.slot? key, P g
    by_cases hforeign : d.Foreign key
    · rwa [slot?_deliver_of_foreign hr hforeign]
    simp only [Delivery.Foreign, not_forall, not_or, not_not] at hforeign
    obtain ⟨f, hdecode, hrole, hkey⟩ := hforeign
    have hown : ¬(f.role = .single ∨ f.key ≠ key) := by simp [hrole, hkey]
    rw [deliver_of_ok hdecode, (state_accept r f).2, Reassembly.slot?_store hr.sound, if_neg hown]
    exact Slot.forall_mem_advance hjoin _ hheld (hd f hdecode hrole hkey)

/-- A transfer that comes out was stored completely, and has the layout of what was stored. -/
theorem exists_of_accept {r : Receiver} {f : Frame} {transfer : Transfer}
    (h : (r.accept f).result = .ok (some transfer)) :
    ∃ completed layout values, (r.reassembly.store f).result = .ok (some completed) ∧
      r.catalogue.layoutOf? completed = some layout ∧
      transfer = transferOf completed layout.name values := by
  rw [result_accept] at h
  obtain ⟨emitted, hstored, hread⟩ := bind_eq_ok_iff.mp h
  cases emitted with
  | none => cases hread
  | some completed =>
    have hread : r.catalogue.read completed = .ok (some transfer) := hread
    cases hlayout : r.catalogue.layoutOf? completed with
    | none =>
      rw [Catalogue.read_of_none hlayout] at hread
      cases hread
    | some layout =>
      rw [Catalogue.read_of_some hlayout] at hread
      obtain ⟨values, -, hvalues⟩ := map_eq_ok_iff.mp hread
      exact ⟨completed, layout, values, hstored, hlayout, (Option.some.inj hvalues).symm⟩

/--
What a frame completes has the id of the frame.  It also has the kind of the frame, unless parts of
the other kind with this id came before.
-/
theorem completed_of_run {catalogue : Catalogue} (earlier : List Delivery) {f completed : Frame}
    (h : (((ofCatalogue catalogue).run earlier).reassembly.store f).result = .ok (some completed)) :
    completed.subjectId = f.subjectId ∧
      ((∀ d ∈ earlier, ∀ g, Frame.decode d.identifier d.bytes d.timestamp = .ok g →
          g.role ≠ .single → g.subjectId = f.subjectId → g.isService = f.isService) →
        completed.isService = f.isService) := by
  have hserves := serves_ofCatalogue catalogue
  by_cases hsingle : f.role = .single
  · rw [Reassembly.store_of_single hsingle] at h
    cases h
    exact ⟨rfl, fun _ => rfl⟩
  rw [Reassembly.result_store (serves_run hserves earlier).sound hsingle] at h
  have hemit : Slot.emit ((ofCatalogue catalogue).run earlier).reassembly.limit
      (((ofCatalogue catalogue).run earlier).reassembly.slot? f.key) f = some completed := by
    simpa using h
  have hbuffered : ∃ buffered ∈ ((ofCatalogue catalogue).run earlier).reassembly.slot? f.key,
      completed = buffered.join f := by
    unfold Slot.emit at hemit
    split at hemit
    · obtain ⟨buffered, hslot, hjoined⟩ := Option.bind_eq_some_iff.mp hemit
      split at hjoined
      · cases hjoined
      · cases hjoined
        exact ⟨buffered, hslot, rfl⟩
    · cases hemit
  obtain ⟨buffered, hslot, rfl⟩ := hbuffered
  have hempty : ∀ P : Frame → Prop, ∀ g ∈ (ofCatalogue catalogue).reassembly.slot? f.key, P g := by
    intro P g hg
    cases hg
  constructor
  · refine forall_mem_slot?_run (P := fun g => g.subjectId = f.subjectId) (fun _ _ => id) ?_
      hserves (hempty _) buffered hslot
    intro d _ g _ _ hkey
    exact congrArg TransferKey.subjectId hkey
  · intro hearlier
    refine forall_mem_slot?_run (P := fun g => g.isService = f.isService) (fun _ _ => id) ?_
      hserves (hempty _) buffered hslot
    intro d hd g hdecode hrole hkey
    exact hearlier d hd g hdecode hrole (congrArg TransferKey.subjectId hkey)

end Receiver

namespace Catalogue

/--
Layouts of a table whose subject ids fit are told apart on the bus.  A frame of such a layout is
received under this layout, whatever its other numbers and its bytes are; no frame of another such
layout has its identifier; and a receiver reads no transfer that it completes as one of another
layout of its kind, whatever came before.  An id that does not fit is received as its rest modulo
the number of ids that do.
-/
theorem routes_of_ofTable [HalfConversion] {table : TypeTable} {catalogue : Catalogue}
    (hcatalogue : ofTable table = .ok catalogue) {rule : Rule} (hrule : rule ∈ catalogue.rules)
    {f : Frame} (hf : rule.Sends f) :
    (f.isStart = true → f.isEnd = true → f.toggle = true → ∀ timestamp,
      ∃ g, Frame.decode f.identifier f.wireBytes timestamp = .ok g ∧ g.role = .single ∧
        g.payload = f.payload) ∧
    (∀ bytes timestamp g, Frame.decode f.identifier bytes timestamp = .ok g →
      g.isService = rule.isService ∧
      g.subjectId = rule.subjectId % Rule.idCount rule.isService) ∧
    (rule.Fits →
      (∀ bytes timestamp g, Frame.decode f.identifier bytes timestamp = .ok g →
        g.subjectId = rule.subjectId ∧ catalogue.layoutOf? g = catalogue.layoutOf? f ∧
        (catalogue.layoutOf? g).map NamedLayout.name = some rule.name) ∧
      (∀ other ∈ catalogue.rules, other.Fits → ∀ f', other.Sends f' →
        f'.identifier = f.identifier → other = rule) ∧
      ∀ (earlier : List Receiver.Delivery) bytes timestamp transfer,
        (((Receiver.ofCatalogue catalogue).run earlier).deliver
            ⟨f.identifier, bytes, timestamp⟩).result = .ok (some transfer) →
          transfer.subjectId = rule.subjectId ∧
          (transfer.isService = rule.isService → transfer.name = rule.name) ∧
          ((∀ d ∈ earlier, ∀ g, Frame.decode d.identifier d.bytes d.timestamp = .ok g →
              g.role ≠ .single → g.subjectId = rule.subjectId → g.isService = rule.isService) →
            transfer.isService = rule.isService)) := by
  have hordered := ordered_of_ofTable hcatalogue
  refine ⟨?_, ?_, ?_⟩
  · intro hstart hend htoggle timestamp
    refine ⟨f.cut.received .single timestamp, ?_, rfl, rfl⟩
    rw [Frame.decode_wireBytes_cut, hstart, hend, htoggle]
    rfl
  · intro bytes timestamp g hdecode
    obtain ⟨hkind, hsubject, -⟩ := Frame.decode_identifier hdecode
    rw [hf.kind, hf.subject] at hsubject
    exact ⟨hkind.trans hf.kind, hsubject⟩
  intro hfits
  refine ⟨?_, ?_, ?_⟩
  · intro bytes timestamp g hdecode
    have hsends := hfits.sends_decoded hf hdecode
    obtain ⟨layout, hlayout, hname⟩ := hordered.layoutOf?_of_sends hrule hsends
    refine ⟨hsends.subject, ?_, by rw [hlayout, Option.map_some, hname]⟩
    exact layoutOf?_congr catalogue (hsends.kind.trans hf.kind.symm)
      (hsends.subject.trans hf.subject.symm) (Frame.decode_identifier hdecode).2.2
  · intro other hother hotherFits f' hf' hidentifier
    -- Some bytes are received with the one identifier that both have.
    obtain ⟨g, hdecode⟩ := Frame.exists_decode f.identifier
    have hsends := hfits.sends_decoded hf hdecode
    rw [← hidentifier] at hdecode
    exact hordered.rule_unique hother hrule (hotherFits.sends_decoded hf' hdecode) hsends
  · intro earlier bytes timestamp transfer hdeliver
    cases hdecode : Frame.decode f.identifier bytes timestamp with
    | error e =>
      rw [Receiver.deliver_of_error hdecode] at hdeliver
      cases hdeliver
    | ok g =>
      rw [Receiver.deliver_of_ok hdecode] at hdeliver
      have hsends := hfits.sends_decoded hf hdecode
      obtain ⟨completed, layout, values, hstored, hlayout, rfl⟩ :=
        Receiver.exists_of_accept hdeliver
      rw [(Receiver.serves_run (Receiver.serves_ofCatalogue catalogue) earlier).knows] at hlayout
      obtain ⟨hsubject, hkind⟩ := Receiver.completed_of_run earlier hstored
      rw [hsends.subject] at hsubject hkind
      rw [hsends.kind] at hkind
      refine ⟨hsubject, fun hsame => ?_, hkind⟩
      obtain ⟨own, hown, hname⟩ := hordered.layoutOf?_of_sends hrule ⟨hsame, hsubject⟩
      cases hlayout.symm.trans hown
      exact hname

open scoped HalfConversion in
/-- A message and a service with the greatest ids that fit. -/
theorem routes_of_ofTable_greatest_ids :
    let tree := FileTree.ofTexts [("r/8191.A.1.0.uavcan", "uint8 a\n"),
      ("r/511.S.1.0.uavcan", "uint8 b\n---\nuint8 c\n")]
    ∃ table catalogue,
      TypeTable.ofTree tree (Path.ofText "r") = .ok table ∧ ofTable table = .ok catalogue ∧
      (∀ bytes timestamp g,
        Frame.decode (Frame.message 8191 5 2).identifier bytes timestamp = .ok g →
          (catalogue.layoutOf? g).map NamedLayout.name = some "A") ∧
      ∀ bytes timestamp g,
        Frame.decode (Frame.service 511 5 6 true 2).identifier bytes timestamp = .ok g →
          (catalogue.layoutOf? g).map NamedLayout.name = some "S" := by
  intro tree
  let catalogue : Catalogue := {
    messages := [⟨8191, "A", [Channel.scalar .unsigned 8 "A.a"]⟩]
    services := [⟨511, "S", [Channel.scalar .unsigned 8 "S.b"], [Channel.scalar .unsigned 8 "S.c"]⟩] }
  have hschema : (TypeTable.ofTree tree (Path.ofText "r") >>= ofTable) = .ok catalogue := by
    decide +kernel
  obtain ⟨table, htable, hcatalogue⟩ := bind_eq_ok_iff.mp hschema
  have hmessageRule : ⟨false, 8191, "A"⟩ ∈ catalogue.rules := by decide
  have hserviceRule : ⟨true, 511, "S"⟩ ∈ catalogue.rules := by decide
  have hmessage := routes_of_ofTable hcatalogue hmessageRule (f := Frame.message 8191 5 2)
    ⟨rfl, rfl⟩
  have hservice := routes_of_ofTable hcatalogue hserviceRule (f := Frame.service 511 5 6 true 2)
    ⟨rfl, rfl⟩
  have hmessageFits : Rule.Fits ⟨false, 8191, "A"⟩ := by decide
  have hserviceFits : Rule.Fits ⟨true, 511, "S"⟩ := by decide
  refine ⟨table, catalogue, htable, hcatalogue, ?_, ?_⟩
  · intro bytes timestamp g hdecode
    exact ((hmessage.2.2 hmessageFits).1 bytes timestamp g hdecode).2.2
  · intro bytes timestamp g hdecode
    exact ((hservice.2.2 hserviceFits).1 bytes timestamp g hdecode).2.2

open scoped HalfConversion in
/-- The id 9000 is sent as 808, and a message with this id is then read with the other layout. -/
theorem message_received_as_other :
    let tree := FileTree.ofTexts [("r/808.B.1.0.uavcan", "uint8 b\n"),
      ("r/9000.A.1.0.uavcan", "uint8 a\n")]
    let template := Frame.message 9000 5 2
    ∃ table catalogue layout f g,
      TypeTable.ofTree tree (Path.ofText "r") = .ok table ∧ ofTable table = .ok catalogue ∧
      ⟨false, 9000, "A"⟩ ∈ catalogue.rules ∧ ⟨false, 808, "B"⟩ ∈ catalogue.rules ∧
      template.identifier = (Frame.message 808 5 2).identifier ∧
      catalogue.layoutOf? template = some layout ∧ layout.name = "A" ∧
      template.serializeNamed layout.channels (Bindings.ofList [("A.a", Double.ofNat 7)]) = .ok f ∧
      Frame.decode f.identifier f.wireBytes 0 = .ok g ∧ g.subjectId = 808 ∧
      ((Receiver.ofCatalogue catalogue).receive f.identifier f.wireBytes 0).result.map
        (Option.map Transfer.name) = .ok (some "B") := by
  intro tree template
  let catalogue : Catalogue := { messages := [⟨808, "B", [Channel.scalar .unsigned 8 "B.b"]⟩,
    ⟨9000, "A", [Channel.scalar .unsigned 8 "A.a"]⟩] }
  have hschema : (TypeTable.ofTree tree (Path.ofText "r") >>= ofTable) = .ok catalogue := by
    decide +kernel
  obtain ⟨table, htable, hcatalogue⟩ := bind_eq_ok_iff.mp hschema
  have hserialize : template.serializeNamed [Channel.scalar .unsigned 8 "A.a"]
      (Bindings.ofList [("A.a", Double.ofNat 7)]) = .ok { template with payload := #[7] } := by
    decide +kernel
  have hdecode : Frame.decode template.identifier { template with payload := #[7] }.wireBytes 0 =
      .ok { template with subjectId := 808, payload := #[7] } := by decide
  exact ⟨table, catalogue, _, _, _, htable, hcatalogue, by decide, by decide, by decide, rfl,
    rfl, hserialize, hdecode, rfl, by decide +kernel⟩

end Catalogue

end BusSchema
