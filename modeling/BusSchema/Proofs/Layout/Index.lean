import BusSchema.Proofs.Layout.Lookup
import Mathlib.Data.List.Induction

/-!
# The catalogue as an index

A table has a catalogue exactly if no two of its definitions are sent under one kind and id, and
otherwise the first definition that repeats an id is reported with the one before it
(`Catalogue.foldlM_add_eq_error_iff`).  A catalogue finds the layout of every routable definition by
its id and by its name, and it finds and lists nothing else (`Catalogue.IndexOf`).  The main
statement is `Catalogue.index_of_ofTable`.  It is about any table, loaded or not: that names are
different and that references lead to earlier definitions is part of every table, so flattening
follows each of them (`TypeTable.flattenWith_reference`).
-/

namespace BusSchema

namespace Definition

/-- The definition is sent on its own, with this kind, id and name. -/
structure SentAs (d : Definition) (isService : Bool) (id : Nat) (name : String) : Prop where
  routable : d.isRoutable = true
  kind : d.isService = isService
  subject : d.subjectId = id
  name : d.name = name

/-- Both definitions are sent on their own, and under the same kind and id. -/
structure Clashes (d e : Definition) : Prop where
  routable : d.isRoutable = true
  other : e.isRoutable = true
  kind : d.isService = e.isService
  subject : d.subjectId = e.subjectId

instance (d e : Definition) : Decidable (d.Clashes e) :=
  decidable_of_iff (d.isRoutable = true ∧ e.isRoutable = true ∧ d.isService = e.isService ∧
      d.subjectId = e.subjectId)
    ⟨fun ⟨hd, he, hkind, hsubject⟩ => ⟨hd, he, hkind, hsubject⟩,
      fun h => ⟨h.routable, h.other, h.kind, h.subject⟩⟩

end Definition

/-- A list that is not pairwise related has a first item that some item before it is unrelated to. -/
theorem exists_first_of_not_pairwise {α : Type} {r : α → α → Prop} {items : List α}
    (h : ¬items.Pairwise r) :
    ∃ front a back, items = front ++ a :: back ∧ front.Pairwise r ∧ ∃ b ∈ front, ¬r b a := by
  induction items using List.reverseRecOn with
  | nil => exact absurd List.Pairwise.nil h
  | append_singleton items last ih =>
    by_cases hitems : items.Pairwise r
    · refine ⟨items, last, [], rfl, hitems, ?_⟩
      by_contra hrelated
      push Not at hrelated
      refine h (List.pairwise_append.mpr ⟨hitems, List.pairwise_singleton r last, ?_⟩)
      simpa using hrelated
    · obtain ⟨front, a, back, rfl, hfront, hfirst⟩ := ih hitems
      exact ⟨front, a, back ++ [last], by simp, hfront, hfirst⟩

namespace Catalogue

/-- The name of the message or service with a subject id. -/
def nameOf? (catalogue : Catalogue) (isService : Bool) (id : Nat) : Option String :=
  if isService then (catalogue.service? id).map ServiceLayout.name
  else (catalogue.message? id).map MessageLayout.name

/-- The subject id of the message or service with a name. -/
def idOf? (catalogue : Catalogue) (isService : Bool) (name : String) : Option Nat :=
  if isService then (catalogue.serviceNamed? name).map ServiceLayout.subjectId
  else (catalogue.messageNamed? name).map MessageLayout.subjectId

/-- A definition is only refused for the name that its kind and id have already. -/
theorem add_eq_error_iff {compounds : List Template} {catalogue : Catalogue} {d : Definition}
    {e : SchemaError} :
    add compounds catalogue d = .error e ↔
      d.isRoutable = true ∧ ∃ name, catalogue.nameOf? d.isService d.subjectId = some name ∧
        e = .duplicateSubject d.isService d.subjectId name d.name := by
  unfold add nameOf?
  cases hroutable : d.isRoutable with
  | false => simp
  | true =>
    cases hresponse : d.response with
    | none =>
      have hkind : d.isService = false := by simp [Definition.isService, hresponse]
      cases hfound : catalogue.message? d.subjectId with
      | none => simp [hkind]
      | some m => simp [hkind, eq_comm]
    | some response =>
      have hkind : d.isService = true := by simp [Definition.isService, hresponse]
      cases hfound : catalogue.service? d.subjectId with
      | none => simp [hkind]
      | some s => simp [hkind, eq_comm]

/-! ## Which definitions are listed -/

/-- The layouts are those of the routable definitions among some definitions. -/
structure Lists (compounds : List Template) (definitions : List Definition)
    (catalogue : Catalogue) : Prop where
  messages : ∀ m, m ∈ catalogue.messages ↔ ∃ d ∈ definitions,
    d.isRoutable = true ∧ d.response = none ∧ m = messageLayout compounds d
  services : ∀ s, s ∈ catalogue.services ↔ ∃ d ∈ definitions,
    d.isRoutable = true ∧ ∃ response ∈ d.response, s = serviceLayout compounds d response

section Lists

variable {compounds : List Template} {definitions : List Definition} {catalogue : Catalogue}

theorem lists_empty : Lists compounds [] {} := by
  constructor <;> simp

theorem Lists.add (h : Lists compounds definitions catalogue) {d : Definition} {next : Catalogue}
    (hadd : Catalogue.add compounds catalogue d = .ok next) :
    Lists compounds (definitions ++ [d]) next := by
  obtain ⟨hmessages, hservices⟩ := mem_add hadd
  obtain ⟨hcovers, hkeptMessages, hkeptServices⟩ := covers_add hadd
  constructor
  · intro m
    simp only [List.mem_append, List.mem_singleton]
    constructor
    · intro hm
      rcases hmessages m hm with hm | hnew
      · obtain ⟨e, he, hlayout⟩ := (h.messages m).mp hm
        exact ⟨e, Or.inl he, hlayout⟩
      · exact ⟨d, Or.inr rfl, hnew⟩
    · rintro ⟨e, he | rfl, hroutable, hnone, rfl⟩
      · exact hkeptMessages ((h.messages _).mpr ⟨e, he, hroutable, hnone, rfl⟩)
      · exact hcovers.message hroutable hnone
  · intro s
    simp only [List.mem_append, List.mem_singleton]
    constructor
    · intro hs
      rcases hservices s hs with hs | hnew
      · obtain ⟨e, he, hlayout⟩ := (h.services s).mp hs
        exact ⟨e, Or.inl he, hlayout⟩
      · exact ⟨d, Or.inr rfl, hnew⟩
    · rintro ⟨e, he | rfl, hroutable, response, hresponse, rfl⟩
      · exact hkeptServices ((h.services _).mpr ⟨e, he, hroutable, response, hresponse, rfl⟩)
      · exact hcovers.service hroutable response hresponse

theorem lists_of_foldlM (h : definitions.foldlM (Catalogue.add compounds) {} = .ok catalogue) :
    Lists compounds definitions catalogue := by
  induction definitions using List.reverseRecOn generalizing catalogue with
  | nil =>
    rw [List.foldlM_nil] at h
    cases h
    exact lists_empty
  | append_singleton definitions d ih =>
    rw [List.foldlM_append] at h
    obtain ⟨earlier, hearlier, hlast⟩ := bind_eq_ok_iff.mp h
    rw [List.foldlM_cons] at hlast
    obtain ⟨next, hadd, hnext⟩ := bind_eq_ok_iff.mp hlast
    rw [List.foldlM_nil] at hnext
    cases hnext
    exact (ih hearlier).add hadd

theorem ordered_of_foldlM (h : definitions.foldlM (Catalogue.add compounds) {} = .ok catalogue) :
    catalogue.Ordered :=
  foldlM_induction (fun _ _ _ _ hstart hnext => ordered_add hstart hnext)
    ⟨List.Pairwise.nil, List.Pairwise.nil⟩ h

/-- A kind and an id have the name of the definition that is sent under them. -/
theorem Lists.nameOf?_eq_some_iff (h : Lists compounds definitions catalogue)
    (hordered : catalogue.Ordered) {isService : Bool} {id : Nat} {name : String} :
    catalogue.nameOf? isService id = some name ↔
      ∃ d ∈ definitions, d.SentAs isService id name := by
  unfold nameOf?
  cases isService with
  | false =>
    simp only [Bool.false_eq_true, if_false, Option.map_eq_some_iff]
    constructor
    · rintro ⟨m, hfound, rfl⟩
      obtain ⟨hm, rfl⟩ := hordered.message?_eq_some_iff.mp hfound
      obtain ⟨d, hd, hroutable, hnone, rfl⟩ := (h.messages m).mp hm
      exact ⟨d, hd, hroutable, by simp [Definition.isService, hnone], rfl, rfl⟩
    · rintro ⟨d, hd, hroutable, hkind, rfl, rfl⟩
      have hnone : d.response = none := by simpa [Definition.isService] using hkind
      have hm := (h.messages _).mpr ⟨d, hd, hroutable, hnone, rfl⟩
      exact ⟨_, hordered.message?_eq_some_iff.mpr ⟨hm, rfl⟩, rfl⟩
  | true =>
    simp only [if_true, Option.map_eq_some_iff]
    constructor
    · rintro ⟨s, hfound, rfl⟩
      obtain ⟨hs, rfl⟩ := hordered.service?_eq_some_iff.mp hfound
      obtain ⟨d, hd, hroutable, response, hresponse, rfl⟩ := (h.services s).mp hs
      exact ⟨d, hd, hroutable, Option.isSome_of_mem hresponse, rfl, rfl⟩
    · rintro ⟨d, hd, hroutable, hkind, rfl, rfl⟩
      obtain ⟨response, hresponse⟩ := Option.isSome_iff_exists.mp hkind
      have hs := (h.services _).mpr ⟨d, hd, hroutable, response, hresponse, rfl⟩
      exact ⟨_, hordered.service?_eq_some_iff.mpr ⟨hs, rfl⟩, rfl⟩

end Lists

/-! ## Success and failure -/

section Fold

variable {compounds : List Template} {definitions : List Definition}

/-- Behind definitions that have a catalogue, one that clashes with one of them is refused. -/
theorem add_eq_error_iff_clashes {catalogue : Catalogue} {d : Definition} {e : SchemaError}
    (h : definitions.foldlM (add compounds) {} = .ok catalogue) :
    add compounds catalogue d = .error e ↔
      ∃ first ∈ definitions, first.Clashes d ∧
        e = .duplicateSubject d.isService d.subjectId first.name d.name := by
  rw [add_eq_error_iff]
  simp only [(lists_of_foldlM h).nameOf?_eq_some_iff (ordered_of_foldlM h)]
  constructor
  · rintro ⟨hroutable, -, ⟨first, hfirst, hsent, hkind, hsubject, rfl⟩, rfl⟩
    exact ⟨first, hfirst, ⟨hsent, hroutable, hkind, hsubject⟩, rfl⟩
  · rintro ⟨first, hfirst, ⟨hsent, hroutable, hkind, hsubject⟩, rfl⟩
    exact ⟨hroutable, first.name, ⟨first, hfirst, hsent, hkind, hsubject, rfl⟩, rfl⟩

theorem exists_foldlM_add (h : definitions.Pairwise fun d e => ¬d.Clashes e) :
    ∃ catalogue, definitions.foldlM (add compounds) {} = .ok catalogue := by
  induction definitions using List.reverseRecOn with
  | nil => exact ⟨{}, rfl⟩
  | append_singleton definitions d ih =>
    obtain ⟨hdefinitions, -, hlast⟩ := List.pairwise_append.mp h
    obtain ⟨catalogue, hcatalogue⟩ := ih hdefinitions
    cases hadd : add compounds catalogue d with
    | ok next =>
      refine ⟨next, ?_⟩
      rw [List.foldlM_append, hcatalogue, ok_bind, List.foldlM_cons, hadd]
      rfl
    | error e =>
      obtain ⟨first, hfirst, hclash, -⟩ := (add_eq_error_iff_clashes hcatalogue).mp hadd
      exact absurd hclash (hlast first hfirst d (List.mem_singleton.mpr rfl))

/-- The report of the first definition that clashes with one before it. -/
def Reports (definitions : List Definition) (e : SchemaError) : Prop :=
  ∃ front first d back, definitions = front ++ d :: back ∧
    (front.Pairwise fun d e => ¬d.Clashes e) ∧ first ∈ front ∧ first.Clashes d ∧
      e = .duplicateSubject d.isService d.subjectId first.name d.name

theorem foldlM_add_of_reports {e : SchemaError} (h : Reports definitions e) :
    definitions.foldlM (add compounds) {} = .error e := by
  obtain ⟨front, first, d, back, rfl, hfront, hfirst, hclash, rfl⟩ := h
  obtain ⟨catalogue, hcatalogue⟩ : ∃ catalogue, front.foldlM (add compounds) {} = .ok catalogue :=
    exists_foldlM_add hfront
  have hadd := (add_eq_error_iff_clashes hcatalogue).mpr ⟨first, hfirst, hclash, rfl⟩
  rw [List.foldlM_append, hcatalogue, ok_bind, List.foldlM_cons, hadd]
  rfl

theorem exists_reports (h : ¬definitions.Pairwise fun d e => ¬d.Clashes e) :
    ∃ e, Reports definitions e := by
  obtain ⟨front, d, back, hsplit, hfront, first, hfirst, hclash⟩ := exists_first_of_not_pairwise h
  exact ⟨_, front, first, d, back, hsplit, hfront, hfirst, not_not.mp hclash, rfl⟩

theorem foldlM_add_eq_error_iff {e : SchemaError} :
    definitions.foldlM (add compounds) {} = .error e ↔ Reports definitions e := by
  refine ⟨fun h => ?_, foldlM_add_of_reports⟩
  by_cases hapart : definitions.Pairwise fun d e => ¬d.Clashes e
  · obtain ⟨catalogue, hcatalogue⟩ := exists_foldlM_add hapart
    cases h.symm.trans hcatalogue
  · obtain ⟨e', he'⟩ := exists_reports hapart
    cases h.symm.trans (foldlM_add_of_reports he')
    exact he'

theorem exists_foldlM_add_iff :
    (∃ catalogue, definitions.foldlM (add compounds) {} = .ok catalogue) ↔
      definitions.Pairwise fun d e => ¬d.Clashes e := by
  refine ⟨?_, exists_foldlM_add⟩
  rintro ⟨catalogue, hcatalogue⟩
  by_contra hclashes
  obtain ⟨e, he⟩ := exists_reports hclashes
  cases hcatalogue.symm.trans (foldlM_add_of_reports he)

end Fold

/-! ## Look-ups -/

/-- A catalogue finds and lists the layouts of the routable definitions of a table, and no others. -/
structure IndexOf (catalogue : Catalogue) (table : TypeTable) : Prop where
  /-- An id has the name of the definition that is sent under it. -/
  nameOf? : ∀ isService id name, catalogue.nameOf? isService id = some name ↔
    ∃ d ∈ table.definitions, d.SentAs isService id name
  /-- A name has the id of the definition that is sent with it. -/
  idOf? : ∀ isService id name, catalogue.idOf? isService name = some id ↔
    ∃ d ∈ table.definitions, d.SentAs isService id name
  /-- The id and the name of a message find the same layout, the flattened fields. -/
  message : ∀ d ∈ table.definitions, d.isRoutable = true → d.response = none →
    let layout := ⟨d.subjectId, d.name, table.flatten d.request.fields d.name⟩
    catalogue.message? d.subjectId = some layout ∧ catalogue.messageNamed? d.name = some layout
  /-- The id and the name of a service find the same layout, the flattened fields of both sides. -/
  service : ∀ d ∈ table.definitions, d.isRoutable = true → ∀ response ∈ d.response,
    let layout := ⟨d.subjectId, d.name, table.flatten d.request.fields d.name,
      table.flatten response.fields d.name⟩
    catalogue.service? d.subjectId = some layout ∧ catalogue.serviceNamed? d.name = some layout
  /-- A definition that is not routable is not found. -/
  hidden : ∀ d ∈ table.definitions, d.isRoutable = false → ∀ isService,
    catalogue.nameOf? isService d.subjectId = none ∧ catalogue.idOf? isService d.name = none
  /-- The layouts of the routable definitions are listed. -/
  messages : ∀ m, m ∈ catalogue.messages ↔ ∃ d ∈ table.definitions,
    d.isRoutable = true ∧ d.response = none ∧
      m = ⟨d.subjectId, d.name, table.flatten d.request.fields d.name⟩
  services : ∀ s, s ∈ catalogue.services ↔ ∃ d ∈ table.definitions,
    d.isRoutable = true ∧ ∃ response ∈ d.response,
      s = ⟨d.subjectId, d.name, table.flatten d.request.fields d.name,
        table.flatten response.fields d.name⟩
  /-- The lists are in the strict order of the ids, so they hold each layout once. -/
  ordered : catalogue.Ordered

section IndexOf

variable {table : TypeTable} {catalogue : Catalogue}
  (hcatalogue : ofTable table = .ok catalogue)

include hcatalogue

/-- Names and ids are each other's inverse. -/
theorem idOf?_eq_some_iff {isService : Bool} {id : Nat} {name : String} :
    catalogue.idOf? isService name = some id ↔ catalogue.nameOf? isService id = some name := by
  have hordered := ordered_of_ofTable hcatalogue
  unfold idOf? nameOf?
  cases isService with
  | false =>
    simp only [Bool.false_eq_true, if_false, Option.map_eq_some_iff,
      messageNamed?_eq_some_iff hcatalogue, hordered.message?_eq_some_iff]
    exact exists_congr fun m => and_right_comm
  | true =>
    simp only [if_true, Option.map_eq_some_iff, serviceNamed?_eq_some_iff hcatalogue,
      hordered.service?_eq_some_iff]
    exact exists_congr fun s => and_right_comm

theorem indexOf_of_ofTable : catalogue.IndexOf table := by
  have hordered := ordered_of_ofTable hcatalogue
  have hlists : Lists table.templates table.definitions catalogue := lists_of_foldlM hcatalogue
  have hnameOf : ∀ isService id name, catalogue.nameOf? isService id = some name ↔
      ∃ d ∈ table.definitions, d.SentAs isService id name :=
    fun isService id name => hlists.nameOf?_eq_some_iff hordered
  have hidOf : ∀ isService id name, catalogue.idOf? isService name = some id ↔
      ∃ d ∈ table.definitions, d.SentAs isService id name :=
    fun isService id name => (idOf?_eq_some_iff hcatalogue).trans (hnameOf isService id name)
  refine ⟨hnameOf, hidOf, ?_, ?_, ?_, hlists.messages, hlists.services, hordered⟩
  · intro d hd hroutable hnone layout
    have hm : layout ∈ catalogue.messages :=
      (hlists.messages layout).mpr ⟨d, hd, hroutable, hnone, rfl⟩
    exact ⟨hordered.message?_eq_some_iff.mpr ⟨hm, rfl⟩,
      (messageNamed?_eq_some_iff hcatalogue).mpr ⟨hm, rfl⟩⟩
  · intro d hd hroutable response hresponse layout
    have hs : layout ∈ catalogue.services :=
      (hlists.services layout).mpr ⟨d, hd, hroutable, response, hresponse, rfl⟩
    exact ⟨hordered.service?_eq_some_iff.mpr ⟨hs, rfl⟩,
      (serviceNamed?_eq_some_iff hcatalogue).mpr ⟨hs, rfl⟩⟩
  · intro d hd hhidden isService
    constructor
    · refine Option.eq_none_iff_forall_ne_some.mpr fun name hname => ?_
      obtain ⟨e, -, hsent⟩ := (hnameOf isService d.subjectId name).mp hname
      have hroutable := hsent.routable
      rw [Definition.isRoutable, hsent.subject] at hroutable
      exact Bool.false_ne_true (hhidden.symm.trans hroutable)
    · refine Option.eq_none_iff_forall_ne_some.mpr fun id hid => ?_
      obtain ⟨e, he, hsent⟩ := (hidOf isService id d.name).mp hid
      obtain rfl := List.inj_on_of_nodup_map table.distinct he hd hsent.name
      exact Bool.false_ne_true (hhidden.symm.trans hsent.routable)

end IndexOf

/--
A table has a catalogue exactly if no two definitions clash.  If some do, then the first one that
clashes with a definition before it is reported behind that one.  The catalogue finds the layout of
every routable definition by its id and by its name, and lists each of them once.
-/
theorem index_of_ofTable (table : TypeTable) :
    ((∃ catalogue, ofTable table = .ok catalogue) ↔
      table.definitions.Pairwise fun d e => ¬d.Clashes e) ∧
    (∀ e, ofTable table = .error e ↔ ∃ front first d back,
      table.definitions = front ++ d :: back ∧ (front.Pairwise fun d e => ¬d.Clashes e) ∧
        first ∈ front ∧ first.Clashes d ∧
          e = .duplicateSubject d.isService d.subjectId first.name d.name) ∧
    ∀ catalogue, ofTable table = .ok catalogue → catalogue.IndexOf table :=
  ⟨exists_foldlM_add_iff, fun _ => foldlM_add_eq_error_iff, fun _ => indexOf_of_ofTable⟩

/-- A message and a service have one id, and a second message with this id is refused. -/
theorem index_of_ofTable_shared_id :
    let flag : Section := { fields := [⟨"x", .primitive (.boolean .saturated)⟩] }
    let inner : Definition := { name := "B", request := flag }
    let pair : Section := { fields := [⟨"b", .array (.compound 0) .static 2⟩] }
    let message : Definition := { name := "A", subjectId := 100, request := pair }
    let service := { inner with name := "S", subjectId := 100, response := some {} }
    let leaves := (TypeTable.empty.push inner (by decide)).2
    let messages := (leaves.push message (by decide)).2
    let table := (messages.push service (by decide)).2
    let clashing := (table.push { message with name := "Z" } (by decide)).2
    (∃ catalogue, ofTable table = .ok catalogue ∧ catalogue.nameOf? false 100 = some "A" ∧
        catalogue.idOf? true "S" = some 100 ∧ catalogue.idOf? false "B" = none ∧
        catalogue.message? 100 = catalogue.messageNamed? "A") ∧
      ofTable clashing = .error (.duplicateSubject false 100 "A" "Z") := by
  intro flag inner pair message service leaves messages table clashing
  obtain ⟨hsome, -, hindex⟩ := index_of_ofTable table
  obtain ⟨-, hreport, -⟩ := index_of_ofTable clashing
  have hapart : table.definitions.Pairwise fun d e => ¬d.Clashes e := by
    decide
  obtain ⟨catalogue, hcatalogue⟩ := hsome.mpr hapart
  have h := hindex catalogue hcatalogue
  have hmessage := h.message message (by decide) rfl rfl
  refine ⟨⟨catalogue, hcatalogue, ?_, ?_, ?_, ?_⟩, ?_⟩
  · exact (h.nameOf? false 100 "A").mpr ⟨message, by decide, rfl, rfl, rfl, rfl⟩
  · exact (h.idOf? true 100 "S").mpr ⟨service, by decide, rfl, rfl, rfl, rfl⟩
  · exact (h.hidden inner (by decide) rfl false).2
  · exact hmessage.1.trans hmessage.2.symm
  · exact (hreport _).mpr ⟨table.definitions, message, { message with name := "Z" }, [], rfl, hapart,
      by decide, ⟨rfl, rfl, rfl, rfl⟩, rfl⟩

end Catalogue

end BusSchema
