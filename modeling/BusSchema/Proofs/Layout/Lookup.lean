import BusSchema.Proofs.Layout.Capacity
import BusSchema.Proofs.Schema.WellFormed
import Mathlib.Data.List.Pairwise

/-!
# Finding layouts

The layouts of a catalogue stand in the strict order of their subject ids, so an id finds the one
layout that has it (`message?_eq_some_iff`, `service?_eq_some_iff`).  The catalogue of a table has
the layouts of all routable definitions of the table (`covers_of_ofTable`), so a name finds one
layout, too (`messageNamed?_eq_some_iff`, `serviceNamed?_eq_some_iff`).
-/

namespace BusSchema

/-- Among items that differ in a key, the key finds the item that has it. -/
theorem find?_eq_some_iff_of_inj {α β : Type} [DecidableEq β] {key : α → β} {items : List α}
    (hinj : ∀ a ∈ items, ∀ b ∈ items, key a = key b → a = b) {k : β} {a : α} :
    items.find? (fun b => key b = k) = some a ↔ a ∈ items ∧ key a = k := by
  constructor
  · intro h
    exact ⟨List.mem_of_find?_eq_some h, by simpa using List.find?_some h⟩
  · rintro ⟨ha, rfl⟩
    have hsome : (items.find? fun b => key b = key a).isSome :=
      List.find?_isSome.mpr ⟨a, ha, decide_eq_true rfl⟩
    obtain ⟨b, hb⟩ := Option.isSome_iff_exists.mp hsome
    have hkey : key b = key a := by simpa using List.find?_some hb
    rw [hb, hinj b (List.mem_of_find?_eq_some hb) a ha hkey]

section InsertByKey

variable {α : Type} {key : α → Nat} {a b : α} {items : List α}

theorem pairwise_insertByKey (hitems : items.Pairwise fun a b => key a < key b)
    (hnew : ∀ b ∈ items, key b ≠ key a) :
    (insertByKey key a items).Pairwise fun a b => key a < key b := by
  induction items with
  | nil => exact List.pairwise_singleton _ _
  | cons first rest ih =>
    obtain ⟨hfirst, hrest⟩ := List.pairwise_cons.mp hitems
    obtain ⟨hne, hnewRest⟩ := List.forall_mem_cons.mp hnew
    rw [insertByKey]
    split
    · next hlt =>
      refine List.pairwise_cons.mpr ⟨?_, hitems⟩
      exact List.forall_mem_cons.mpr ⟨hlt, fun c hc => Nat.lt_trans hlt (hfirst c hc)⟩
    · next hle =>
      refine List.pairwise_cons.mpr ⟨?_, ih hrest hnewRest⟩
      intro c hc
      rcases Catalogue.mem_insertByKey_iff.mp hc with rfl | hc
      · exact Nat.lt_of_le_of_ne (Nat.le_of_not_lt hle) hne
      · exact hfirst c hc

/-- In a list in the strict order of a key, at most one item has a given key. -/
theorem eq_of_key_eq (hitems : items.Pairwise fun a b => key a < key b) (ha : a ∈ items)
    (hb : b ∈ items) (h : key a = key b) : a = b := by
  by_contra hne
  have hsymm : Std.Symm fun a b : α => key a ≠ key b := ⟨fun _ _ => Ne.symm⟩
  have hapart : items.Pairwise fun a b => key a ≠ key b := hitems.imp Nat.ne_of_lt
  exact List.Pairwise.forall hapart ha hb hne h

theorem find?_key_eq_some_iff (hitems : items.Pairwise fun a b => key a < key b) {k : Nat} :
    items.find? (fun b => key b = k) = some a ↔ a ∈ items ∧ key a = k :=
  find?_eq_some_iff_of_inj fun _ ha _ hb h => eq_of_key_eq hitems ha hb h

end InsertByKey

/-- What each step of a fold establishes for its item, and later steps keep, holds of all items. -/
theorem forall_mem_of_foldlM {α σ ε : Type} {step : σ → α → Except ε σ} {P : α → σ → Prop}
    (hnew : ∀ s a next, step s a = .ok next → P a next)
    (hkeep : ∀ s a next b, step s a = .ok next → P b s → P b next)
    {items : List α} {start last : σ} (h : items.foldlM step start = .ok last) :
    ∀ a ∈ items, P a last := by
  induction items generalizing start with
  | nil => simp
  | cons a rest ih =>
    rw [List.foldlM_cons] at h
    obtain ⟨next, hfirst, hrest⟩ := bind_eq_ok_iff.mp h
    have hlast : P a last :=
      foldlM_induction (fun s b _ next hs hb => hkeep s b next a hb hs)
        (hnew start a next hfirst) hrest
    exact List.forall_mem_cons.mpr ⟨hlast, ih hrest⟩

namespace Catalogue

/-! ## The order of the layouts -/

/-- Layouts of either kind stand in the strict order of their subject ids. -/
structure Ordered (catalogue : Catalogue) : Prop where
  messages : catalogue.messages.Pairwise fun a b => a.subjectId < b.subjectId
  services : catalogue.services.Pairwise fun a b => a.subjectId < b.subjectId

theorem Ordered.message?_eq_some_iff {catalogue : Catalogue} (h : catalogue.Ordered) {id : Nat}
    {m : MessageLayout} :
    catalogue.message? id = some m ↔ m ∈ catalogue.messages ∧ m.subjectId = id :=
  find?_key_eq_some_iff h.messages

theorem Ordered.service?_eq_some_iff {catalogue : Catalogue} (h : catalogue.Ordered) {id : Nat}
    {s : ServiceLayout} :
    catalogue.service? id = some s ↔ s ∈ catalogue.services ∧ s.subjectId = id :=
  find?_key_eq_some_iff h.services

theorem ordered_add {compounds : List Template} {catalogue next : Catalogue}
    (hcatalogue : catalogue.Ordered) {d : Definition}
    (h : add compounds catalogue d = .ok next) : next.Ordered := by
  unfold add at h
  split at h
  · cases h
    exact hcatalogue
  · split at h
    · split at h
      · cases h
      · next hfree =>
        cases h
        refine ⟨pairwise_insertByKey hcatalogue.messages fun m hm => ?_, hcatalogue.services⟩
        simpa [messageLayout] using List.find?_eq_none.mp hfree m hm
    · split at h
      · cases h
      · next hfree =>
        cases h
        refine ⟨hcatalogue.messages, pairwise_insertByKey hcatalogue.services fun s hs => ?_⟩
        simpa [serviceLayout] using List.find?_eq_none.mp hfree s hs

theorem ordered_of_ofTable {table : TypeTable} {catalogue : Catalogue}
    (h : ofTable table = .ok catalogue) : catalogue.Ordered :=
  foldlM_induction (fun _ _ _ _ hstart hnext => ordered_add hstart hnext)
    ⟨List.Pairwise.nil, List.Pairwise.nil⟩ h

/-! ## The layouts of all routable definitions -/

/-- The catalogue has the layout of a definition, if that is routable. -/
structure Covers (compounds : List Template) (d : Definition) (catalogue : Catalogue) : Prop where
  message : d.isRoutable = true → d.response = none →
    messageLayout compounds d ∈ catalogue.messages
  service : d.isRoutable = true → ∀ response ∈ d.response,
    serviceLayout compounds d response ∈ catalogue.services

/-- Adding a definition adds its layout, and keeps the layouts before. -/
theorem covers_add {compounds : List Template} {catalogue next : Catalogue} {d : Definition}
    (h : add compounds catalogue d = .ok next) :
    next.Covers compounds d ∧ catalogue.messages ⊆ next.messages ∧
      catalogue.services ⊆ next.services := by
  unfold add at h
  split at h
  · next hroutable =>
    cases h
    have hfalse : d.isRoutable ≠ true := by simpa using hroutable
    exact ⟨⟨fun h => absurd h hfalse, fun h => absurd h hfalse⟩, fun _ => id, fun _ => id⟩
  · split at h
    · next hresponse =>
      split at h
      · cases h
      · cases h
        refine ⟨⟨fun _ _ => mem_insertByKey_iff.mpr (Or.inl rfl), ?_⟩,
          fun m hm => mem_insertByKey_iff.mpr (Or.inr hm), fun _ => id⟩
        intro _ response hmem
        rw [hresponse] at hmem
        cases hmem
    · next response hresponse =>
      split at h
      · cases h
      · cases h
        refine ⟨⟨fun _ hnone => ?_, fun _ other hother => ?_⟩, fun _ => id,
          fun s hs => mem_insertByKey_iff.mpr (Or.inr hs)⟩
        · rw [hresponse] at hnone
          cases hnone
        · cases hresponse.symm.trans hother
          exact mem_insertByKey_iff.mpr (Or.inl rfl)

theorem covers_of_ofTable {table : TypeTable} {catalogue : Catalogue}
    (h : ofTable table = .ok catalogue) :
    ∀ d ∈ table.definitions, catalogue.Covers table.templates d := by
  refine forall_mem_of_foldlM (P := fun d c => Covers table.templates d c) ?_ ?_ h
  · intro start d next hadd
    exact (covers_add hadd).1
  · intro start d next other hadd hcovers
    obtain ⟨-, hmessages, hservices⟩ := covers_add hadd
    exact ⟨fun hroutable hnone => hmessages (hcovers.message hroutable hnone),
      fun hroutable response hresponse => hservices (hcovers.service hroutable response hresponse)⟩

/-! ## Names -/

section Names

variable {table : TypeTable} {catalogue : Catalogue}
  (hcatalogue : ofTable table = .ok catalogue)

include hcatalogue

theorem messageNamed?_eq_some_iff {name : String} {m : MessageLayout} :
    catalogue.messageNamed? name = some m ↔ m ∈ catalogue.messages ∧ m.name = name := by
  refine find?_eq_some_iff_of_inj fun m hm other hother hname => ?_
  obtain ⟨d, hd, -, -, rfl⟩ := (laysOut_of_ofTable hcatalogue).messages m hm
  obtain ⟨e, he, -, -, rfl⟩ := (laysOut_of_ofTable hcatalogue).messages other hother
  rw [List.inj_on_of_nodup_map table.distinct hd he hname]

theorem serviceNamed?_eq_some_iff {name : String} {s : ServiceLayout} :
    catalogue.serviceNamed? name = some s ↔ s ∈ catalogue.services ∧ s.name = name := by
  refine find?_eq_some_iff_of_inj fun s hs other hother hname => ?_
  obtain ⟨d, hd, -, response, hresponse, rfl⟩ := (laysOut_of_ofTable hcatalogue).services s hs
  obtain ⟨e, he, -, others, hothers, rfl⟩ :=
    (laysOut_of_ofTable hcatalogue).services other hother
  obtain rfl := List.inj_on_of_nodup_map table.distinct hd he hname
  rw [Option.some.inj (hresponse.symm.trans hothers)]

end Names

end Catalogue

end BusSchema
