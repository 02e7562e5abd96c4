import BusSchema.Proofs.Layout.Keys

/-!
# Values that are told apart by their keys

If no two channels share a key, every value that is read has an entry of its own
(`Payload.nodup_of_read`), and a channel never takes a value that is another channel's
(`Channel.valuesIn_bind`).  The layouts of a loaded schema have such channels exactly if no fields
clash (`Catalogue.disjointKeys_iff_of_layoutOf?`), which the schema language does not rule out
(`Catalogue.not_disjointKeys_element`).
-/

namespace BusSchema

namespace Channel

/-- A channel does not see a value that is bound under a key of another channel. -/
theorem valuesIn_bind {channels : List Channel} (hkeys : DisjointKeys channels) {c d : Channel}
    (hc : c ∈ channels) (hd : d ∈ channels) (hne : c ≠ d) {key : String} (hkey : d.HasKey key)
    (values : NamedValues) (value : Double) :
    c.valuesIn (values.bind key value) = c.valuesIn values := by
  have : Std.Symm fun a b : Channel => ∀ key, a.HasKey key → ¬b.HasKey key :=
    ⟨fun a b h key hb ha => h key ha hb⟩
  have hapart := List.Pairwise.forall hkeys hc hd hne
  apply valuesIn_congr
  intro other hother
  have hname : key ≠ other := by
    rintro rfl
    exact hapart key hother hkey
  rw [Bindings.get?_bind, if_neg hname]

theorem nodup_named {c : Channel} {elements : List Double} (hadmits : c.Admits elements.length) :
    ((c.named elements).map Prod.fst).Nodup := by
  unfold Admits at hadmits
  unfold named
  cases hvoid : c.isVoid with
  | true => exact List.nodup_nil
  | false =>
    cases hdynamic : c.isDynamic with
    | true =>
      simp only [Bool.false_eq_true, if_false, if_true]
      exact nodup_elementNames c elements
    | false =>
      have hone : elements.length = 1 := by simpa [hvoid, hdynamic] using hadmits
      obtain ⟨value, rfl⟩ := List.length_eq_one_iff.mp hone
      exact List.nodup_singleton _

end Channel

/-- Channels without common keys give all their values different names. -/
theorem Allotment.nodup_named {allotment : Allotment} (hadmitted : allotment.Admitted)
    (hkeys : Channel.DisjointKeys (allotment.map Prod.fst)) :
    (allotment.named.map Prod.fst).Nodup := by
  induction allotment with
  | nil => exact List.nodup_nil
  | cons entry rest ih =>
    obtain ⟨hadmits, hrestAdmitted⟩ := admitted_cons_iff.mp hadmitted
    obtain ⟨hapart, hrestKeys⟩ := List.pairwise_cons.mp hkeys
    rw [named_cons, List.map_append, List.nodup_append']
    refine ⟨Channel.nodup_named hadmits, ih hrestAdmitted hrestKeys, ?_⟩
    intro key hfirst hrest
    obtain ⟨pair, hpair, rfl⟩ := List.mem_map.mp hfirst
    obtain ⟨other, hother, hname⟩ := List.mem_map.mp hrest
    obtain ⟨d, hd, hdkey⟩ := hasKey_of_mem_named hother
    rw [hname] at hdkey
    exact hapart d hd pair.1 (Channel.hasKey_of_mem_named hpair) hdkey

theorem Bindings.entries_bindAll {α : Type} (pairs : List (String × α)) (bindings : Bindings α) :
    (bindings.bindAll pairs).entries = pairs.reverse ++ bindings.entries := by
  induction pairs generalizing bindings with
  | nil => rfl
  | cons pair rest ih =>
    have hrest := ih (bindings.bind pair.1 pair.2)
    rw [List.reverse_cons, List.append_assoc]
    exact hrest

/-- What is read has one entry for each value. -/
theorem Payload.nodup_of_read [HalfConversion] {channels : List Channel}
    (hchannels : ∀ c ∈ channels, c.IsCodable) (hkeys : Channel.DisjointKeys channels)
    {bytes : Bytes} {values : NamedValues} (h : read channels bytes = .ok values) :
    (values.entries.map Prod.fst).Nodup := by
  obtain ⟨next, hread, rfl⟩ := map_eq_ok_iff.mp h
  obtain ⟨hadmitted, -, rfl⟩ := (readChannels_eq_ok_iff hchannels (Nat.zero_le _)).mp hread
  have hnames := Allotment.nodup_named hadmitted (by rwa [Allotment.channels_ofBytes])
  rw [Bindings.entries_bindAll, List.append_nil, List.map_reverse, List.nodup_reverse]
  exact hnames

namespace Catalogue

/-- The channels of a layout are those of a section, below the name of its definition. -/
theorem exists_section_of_layoutOf? {table : TypeTable} {catalogue : Catalogue}
    (hcatalogue : ofTable table = .ok catalogue) {f : Frame} {layout : NamedLayout}
    (hlayout : catalogue.layoutOf? f = some layout) :
    ∃ d ∈ table.definitions, ∃ s ∈ d.sections,
      layout.channels = table.flatten s.fields d.name := by
  have hlayouts := laysOut_of_ofTable hcatalogue
  rcases channels_of_layoutOf? hlayout with ⟨m, hm, hchannels⟩ | ⟨s, hs, hchannels⟩
  · obtain ⟨d, hd, -, -, rfl⟩ := hlayouts.messages m hm
    exact ⟨d, hd, d.request, List.mem_cons_self, hchannels⟩
  · obtain ⟨d, hd, -, response, hresponse, rfl⟩ := hlayouts.services s hs
    rcases hchannels with hchannels | hchannels
    · exact ⟨d, hd, d.request, List.mem_cons_self, hchannels⟩
    · have hside : response ∈ d.sections :=
        List.mem_cons_of_mem _ (Option.mem_toList.mpr hresponse)
      exact ⟨d, hd, response, hside, hchannels⟩

/--
The channels of a layout of a loaded schema share no key if and only if no fields clash in the
section that they come from, nor in one that it embeds.  Then every value that is read has an entry
of its own, and no value is taken by a channel that it does not belong to.
-/
theorem disjointKeys_iff_of_layoutOf? [HalfConversion] {tree : FileTree} {root : Path}
    {table : TypeTable} {catalogue : Catalogue} (htable : TypeTable.ofTree tree root = .ok table)
    (hcatalogue : ofTable table = .ok catalogue) {f : Frame} {layout : NamedLayout}
    (hlayout : catalogue.layoutOf? f = some layout) :
    ∃ d ∈ table.definitions, ∃ s ∈ d.sections,
      layout.channels = table.flatten s.fields d.name ∧
      (Channel.DisjointKeys layout.channels ↔ table.ClashFree s) ∧
      (table.ClashFree s →
        (∀ (g : Frame) (values : NamedValues), g.parse layout.channels = .ok values →
          (values.entries.map Prod.fst).Nodup) ∧
        ∀ c ∈ layout.channels, ∀ other ∈ layout.channels, c ≠ other →
          ∀ key, other.HasKey key → ∀ (values : NamedValues) (value : Double),
            c.valuesIn (values.bind key value) = c.valuesIn values) := by
  have hbuilt := TypeTable.built_of_ofTree htable
  have hfits := fits_of_layoutOf? (fits_of_ofTable hbuilt.sized hcatalogue) hlayout
  obtain ⟨d, hd, s, hs, hchannels⟩ := exists_section_of_layoutOf? hcatalogue hlayout
  have hiff : Channel.DisjointKeys layout.channels ↔ table.ClashFree s := by
    rw [hchannels]
    exact hbuilt.disjointKeys_flatten_iff (hbuilt.valid hd s hs) d.name
  refine ⟨d, hd, s, hs, hchannels, hiff, ?_⟩
  intro hfree
  have hkeys := hiff.mpr hfree
  constructor
  · intro g values hparse
    exact Payload.nodup_of_read (fun c hc => (hfits c hc).isCodable) hkeys hparse
  · intro c hc other hother hne key hkey values value
    exact Channel.valuesIn_bind hkeys hc hother hne hkey values value

open scoped HalfConversion in
/-- The values of a message with two scalar fields have entries of their own. -/
theorem disjointKeys_iff_of_layoutOf?_scalars :
    let tree := FileTree.ofTexts [("r/100.A.1.0.uavcan", "uint8 a\nuint8 b\n")]
    ∃ table catalogue layout,
      TypeTable.ofTree tree (Path.ofText "r") = .ok table ∧ ofTable table = .ok catalogue ∧
      catalogue.layoutOf? (Frame.message 100 5 2) = some layout ∧
      ∀ (g : Frame) (values : NamedValues), g.parse layout.channels = .ok values →
        (values.entries.map Prod.fst).Nodup := by
  intro tree
  let catalogue : Catalogue := { messages := [⟨100, "A", [Channel.scalar .unsigned 8 "A.a",
    Channel.scalar .unsigned 8 "A.b"]⟩] }
  have hschema : (TypeTable.ofTree tree (Path.ofText "r") >>= ofTable) = .ok catalogue := by
    decide +kernel
  obtain ⟨table, htable, hcatalogue⟩ := bind_eq_ok_iff.mp hschema
  have hkeys : Channel.DisjointKeys [Channel.scalar .unsigned 8 "A.a",
      Channel.scalar .unsigned 8 "A.b"] := by
    simp [Channel.DisjointKeys, Channel.HasKey, Channel.scalar, Channel.isVoid, Channel.isDynamic]
  have hlayout : catalogue.layoutOf? (Frame.message 100 5 2) = some ⟨"A",
      [Channel.scalar .unsigned 8 "A.a", Channel.scalar .unsigned 8 "A.b"]⟩ := rfl
  obtain ⟨d, -, s, -, -, hiff, hread⟩ :=
    disjointKeys_iff_of_layoutOf? htable hcatalogue hlayout
  exact ⟨table, catalogue, _, htable, hcatalogue, hlayout, (hread (hiff.mp hkeys)).1⟩

open scoped HalfConversion in
/-- The only value of a field with the name of an element is sent as an element, too. -/
theorem not_disjointKeys_element :
    let tree := FileTree.ofTexts [("r/100.A.1.0.uavcan", "uint8[<=3] a\nuint8 a_0\n")]
    let template := Frame.message 100 5 2
    ∃ table catalogue layout,
      TypeTable.ofTree tree (Path.ofText "r") = .ok table ∧ ofTable table = .ok catalogue ∧
      catalogue.layoutOf? template = some layout ∧ ¬Channel.DisjointKeys layout.channels ∧
      template.serializeNamed layout.channels
          (Bindings.ofList [("A.a_0", Double.ofNat 7)]) =
        .ok { template with payload := #[29, 28, 0] } := by
  intro tree template
  let catalogue : Catalogue := { messages := [⟨100, "A",
    [Channel.dynamicArray .unsigned 8 "A.a" 3, Channel.scalar .unsigned 8 "A.a_0"]⟩] }
  have hschema : (TypeTable.ofTree tree (Path.ofText "r") >>= ofTable) = .ok catalogue := by
    decide +kernel
  obtain ⟨table, htable, hcatalogue⟩ := bind_eq_ok_iff.mp hschema
  refine ⟨table, catalogue, _, htable, hcatalogue, rfl, ?_, by decide +kernel⟩
  intro hkeys
  have hapart := (List.pairwise_cons.mp hkeys).1 _ List.mem_cons_self
  exact hapart "A.a_0" ⟨by decide, 0, by decide⟩ ⟨by decide, rfl⟩

end Catalogue

end BusSchema
