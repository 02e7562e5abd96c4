import BusSchema.Proofs.Schema.Segments
import BusSchema.Proofs.Schema.WellFormed

/-!
# Reading a file again

Reading a file may load other files first.  Once these are in the table, reading the file again
with references that only look names up gives the same definition and loads nothing
(`Load.run_lookup_of_run_resolver`).

A reference is looked up by the name that is written in it before the name of the file that it leads
to.  The two are different only if a segment of the written name is empty, and no file behind a
reference has such a name, so what was loaded meanwhile does not come in between
(`TypeTable.Follows`).
-/

namespace BusSchema

namespace TypeTable

theorem find?_eq_none_iff {table : TypeTable} {name : String} :
    table.find? name = none ↔ ∀ d ∈ table.definitions, d.name ≠ name := by
  unfold TypeTable.find?
  simp

/-- The later table has grown by definitions whose names have no empty segments. -/
structure Follows (earlier later : TypeTable) : Prop where
  grows : earlier.Grows later
  regular : ∀ i d, earlier.size ≤ i → later.definitions[i]? = some d → Regular d.name

namespace Follows

variable {a b c : TypeTable}

theorem refl (table : TypeTable) : table.Follows table := by
  refine ⟨Grows.refl table, ?_⟩
  intro i d hi hd
  exact absurd (List.getElem?_eq_some_iff.mp hd).1 (Nat.not_lt.mpr hi)

theorem trans (hab : a.Follows b) (hbc : b.Follows c) : a.Follows c := by
  refine ⟨hab.grows.trans hbc.grows, ?_⟩
  intro i d hi hd
  rcases Nat.lt_or_ge i b.size with hlt | hge
  · refine hab.regular i d hi ?_
    rw [← hd, getElem?_of_isPrefix hbc.grows hlt]
  · exact hbc.regular i d hge hd

theorem push (hab : a.Follows b) {d : Definition} (hd : Regular d.name) (h : b.Accepts d) :
    a.Follows (b.push d h).2 := by
  refine ⟨hab.grows.trans (grows_push h), ?_⟩
  intro i other hi hother
  rcases getElem?_push hother with hearlier | ⟨-, rfl⟩
  · exact hab.regular i other hi hearlier
  · exact hd

/-- A name with an empty segment is not added. -/
theorem find?_eq_none (hab : a.Follows b) {name : String} (hname : ¬Regular name)
    (hnone : a.find? name = none) : b.find? name = none := by
  rw [find?_eq_none_iff] at hnone ⊢
  intro d hd hsame
  obtain ⟨i, hi⟩ := List.mem_iff_getElem?.mp hd
  rcases Nat.lt_or_ge i a.size with hlt | hge
  · rw [getElem?_of_isPrefix hab.grows hlt] at hi
    exact hnone d (List.mem_of_getElem? hi) hsame
  · exact hname (hsame ▸ hab.regular i d hge hi)

end Follows

end TypeTable

/-! ## Lines -/

namespace SectionDraft

/-- A field with a valid type takes the same place after more definitions were loaded. -/
theorem pushField_grows {a b : TypeTable} (hab : a.Grows b) (draft : SectionDraft) {f : Field}
    (hf : f.type.Valid a) : draft.pushField b f = draft.pushField a f := by
  have happend : ∀ draft : SectionDraft, draft.append b f = draft.append a f := by
    intro draft
    rw [append, append, hf.greatest?_grows hab]
  simp only [pushField, happend]

end SectionDraft

theorem DefinitionDraft.push_grows {a b : TypeTable} (hab : a.Grows b) (draft : DefinitionDraft)
    {attr : Attribute} (hattr : attr.Valid a) : draft.push b attr = draft.push a attr := by
  cases attr with
  | constant c => rfl
  | field f => simp only [push, SectionDraft.pushField_grows hab _ hattr.1]

theorem FieldType.makeArray_grows {a b : TypeTable} (hab : a.Grows b) {element type : FieldType}
    {bound : BoundExpr} (hscalar : element.IsScalar) (helement : element.Valid a)
    (h : makeArray a element bound = .ok type) : makeArray b element bound = .ok type := by
  have hvalid := valid_of_makeArray hscalar helement h
  unfold makeArray at h ⊢
  split at h
  · cases h
  next hpadding =>
  obtain ⟨⟨mode, size⟩, hbound, hrest⟩ := bind_eq_ok_iff.mp h
  rw [if_neg hpadding]
  refine bind_eq_ok_iff.mpr ⟨(mode, size), hbound, ?_⟩
  dsimp only at hrest ⊢
  split at hrest
  · cases hrest
  next length hlength =>
  cases hrest
  rw [hvalid.greatest?_grows hab, hlength]
  rfl

namespace Load

variable {α β : Type} {pre : TypeTable → Prop} {fault : TypeTable → Prop}

/--
What the first computation loads and returns, the second one returns from any later table without
loading anything.
-/
def Settles (pre : TypeTable → Prop) (x y : Load α) : Prop :=
  ∀ table a after, pre table → x.run table = (.ok a, after) →
    table.Follows after ∧ ∀ later, after.Follows later → y.run later = (.ok a, later)

theorem settles_pure (a : α) : Settles pre (pure a) (pure a) := by
  intro table b after _ hrun
  cases hrun
  exact ⟨.refl _, fun later _ => rfl⟩

theorem settles_throw (e : SchemaError) (y : Load α) : Settles pre (throw e) y := by
  intro table a after _ hrun
  cases hrun

theorem Settles.bind {x y : Load β} {f g : β → Load α} {middle : β → TypeTable → Prop}
    (hx : Settles pre x y) (hpost : Triple pre x middle fault)
    (hf : ∀ b, Settles (middle b) (f b) (g b)) : Settles pre (x >>= f) (y >>= g) := by
  intro table a after htable hrun
  obtain ⟨b, between, hfirst, hrest⟩ := run_bind_eq_ok hrun
  have hbetween := (hpost table htable).2
  rw [hfirst] at hbetween
  obtain ⟨hfollows, hagain⟩ := hx table b between htable hfirst
  obtain ⟨hnext, hagainNext⟩ := hf b between a after hbetween hrest
  refine ⟨hfollows.trans hnext, fun later hlater => ?_⟩
  rw [run_bind, hagain later (hnext.trans hlater)]
  exact hagainNext later hlater

theorem settles_ofLine (located : LineFault → SchemaError) (result : Except LineFault α) :
    Settles pre (ofLine located result) (ofLine located result) := by
  cases result with
  | ok a => exact settles_pure a
  | error fault => exact settles_throw _ _

/-- A result that may depend on the table settles if it stays the same while the table grows. -/
theorem settles_get_ofLine {located : LineFault → SchemaError}
    {result : TypeTable → Except LineFault α}
    (h : ∀ table later a, pre table → table.Grows later → result table = .ok a →
      result later = .ok a) :
    Settles pre (get >>= fun table => ofLine located (result table))
      (get >>= fun table => ofLine located (result table)) := by
  intro table a after htable hrun
  rw [run_get_bind] at hrun
  obtain ⟨hresult, rfl⟩ := ofLine_eq_ok hrun
  refine ⟨.refl table, fun later hlater => ?_⟩
  rw [run_get_bind, h table later a htable hlater.grows hresult]
  rfl

section Elaboration

variable {inv : TypeTable → Prop} {resolve look : Resolver} (hresolve : Resolves inv resolve)
  (hlook : ∀ located written, Settles inv (resolve located written) (look located written))

include hresolve hlook

theorem settles_elaborateScalar (located : LineFault → SchemaError) (cast : CastMode)
    (expr : ScalarExpr) :
    Settles inv (elaborateScalar resolve located cast expr)
      (elaborateScalar look located cast expr) := by
  cases expr with
  | padding digits => exact settles_ofLine located _
  | boolean => exact settles_pure _
  | numeric kind digits => exact settles_ofLine located _
  | named reference =>
    exact (hlook located reference).bind (hresolve located reference) fun id => settles_pure _

theorem settles_elaborateType (located : LineFault → SchemaError) (cast : CastMode)
    (expr : TypeExpr) :
    Settles inv (elaborateType resolve located cast expr)
      (elaborateType look located cast expr) := by
  cases expr with
  | scalar type => exact settles_elaborateScalar hresolve hlook located cast type
  | array element bound =>
    refine (settles_elaborateScalar hresolve hlook located cast element).bind
      (triple_elaborateScalar hresolve located cast element) fun type => settles_get_ofLine ?_
    rintro table later made ⟨-, hvalid, hscalar⟩ hgrows hmade
    exact FieldType.makeArray_grows hgrows hscalar hvalid hmade

theorem settles_elaborateStatement (located : LineFault → SchemaError) (draft : DefinitionDraft)
    {line : List Char} {statement : Statement} (hread : Statement.read? line = some statement) :
    Settles inv (elaborateStatement resolve located draft statement)
      (elaborateStatement look located draft statement) := by
  cases statement with
  | separator => exact settles_ofLine located _
  | directive name hasArgument => exact settles_ofLine located _
  | member attr =>
    refine (settles_elaborateType hresolve hlook located attr.cast attr.type).bind
      (triple_elaborateType hresolve located attr.cast attr.type) fun type => ?_
    have hmade : Triple (fun table => inv table ∧ type.Valid table)
        (ofLine located (Attribute.make type attr.name attr.literal))
        (fun made table => made.Valid table) (fun _ => True) := by
      refine triple_ofLine ?_ fun _ _ => trivial
      intro made hmade table h
      exact Attribute.valid_of_make h.2 (Statement.isName_of_read? hread) hmade
    refine (settles_ofLine located _).bind hmade fun made => settles_get_ofLine ?_
    intro table later next hattr hgrows hnext
    rw [DefinitionDraft.push_grows hgrows draft hattr, hnext]

theorem settles_elaborateLine (located : LineFault → SchemaError) (draft : DefinitionDraft)
    (line : List Char) :
    Settles inv (elaborateLine resolve located draft line)
      (elaborateLine look located draft line) := by
  unfold elaborateLine
  split
  · exact settles_pure draft
  · split
    · exact settles_throw _ _
    · next hread => exact settles_elaborateStatement hresolve hlook located draft hread

theorem settles_elaborateLines (path : String) (number : Nat) (lines : List (List Char))
    (draft : DefinitionDraft) :
    Settles (fun table => inv table ∧ draft.Valid table)
      (elaborateLines resolve path number lines draft)
      (elaborateLines look path number lines draft) := by
  induction lines generalizing number draft with
  | nil => exact settles_pure draft
  | cons line rest ih =>
    have hline : Settles (fun table => inv table ∧ draft.Valid table)
        (elaborateLine resolve (.line path number) draft line)
        (elaborateLine look (.line path number) draft line) :=
      fun table next after h =>
        settles_elaborateLine hresolve hlook _ draft line table next after h.1
    exact hline.bind (triple_elaborateLine hresolve _ draft line) fun next => ih (number + 1) next

/-- The definition in a text is read again from any later table. -/
theorem settles_elaborateText (source : SourceFile) (text : String) :
    Settles inv (elaborateText resolve source text) (elaborateText look source text) := by
  have hstart : ∀ table, inv table → inv table ∧ DefinitionDraft.Valid table {} :=
    fun table h => ⟨h, DefinitionDraft.valid_empty table⟩
  intro table d after htable hrun
  have hlines :=
    settles_elaborateLines hresolve hlook source.path.text 1 (Text.lines text.toList) {}
  have hpost := triple_elaborateLines hresolve source.path.text 1 (Text.lines text.toList) {}
  exact hlines.bind hpost (fun draft => settles_pure _) table d after (hstart table htable) hrun

end Elaboration

/-! ## References -/

/-- How references of a file are resolved once all files behind them were read. -/
def lookup (tree : FileTree) (root : Path) (source : SourceFile) : Resolver :=
  fun located written =>
    match Reference.read? source.nameSpace written with
    | none => throw (located (.referenceVersion written))
    | some reference =>
      match reference.locate tree root written located with
      | .error e => throw e
      | .ok target => do
        let table ← get
        match table.find? reference.fullName <|> table.find? target.name with
        | some id => checkReference located written reference id
        | none => throw (located (.unknownDefinition written))

/-- The check of a reference depends on the definition only, and leaves the table as it is. -/
theorem checkReference_of_getElem? (located : LineFault → SchemaError) (text : String)
    (reference : Reference) (id : Nat) (d : Definition) :
    ∃ result, ∀ table : TypeTable, table.definitions[id]? = some d →
      (checkReference located text reference id).run table = (result, table) := by
  unfold checkReference
  obtain ⟨embedded, hembedded⟩ : ∃ result, ∀ table : TypeTable,
      (if d.isService = true then
        (throw (located (.embeddedService reference.fullName)) : Load Unit) >>= fun _ => pure id
      else pure id : Load Nat).run table = (result, table) := by
    split
    · exact ⟨_, fun _ => rfl⟩
    · exact ⟨_, fun _ => rfl⟩
  cases reference.version with
  | none =>
    refine ⟨embedded, fun table hd => ?_⟩
    rw [run_get_bind, hd]
    exact hembedded table
  | some wanted =>
    by_cases hwanted : d.version ≠ wanted
    · refine ⟨.error (located (.otherVersion text wanted reference.fullName d.version)),
        fun table hd => ?_⟩
      rw [run_get_bind, hd]
      simp only [if_pos hwanted]
      rfl
    · refine ⟨embedded, fun table hd => ?_⟩
      rw [run_get_bind, hd]
      simp only [if_neg hwanted]
      exact hembedded table

theorem checkReference_grows {a b after : TypeTable} (hab : a.Grows b)
    {located : LineFault → SchemaError} {text : String} {reference : Reference} {id result : Nat}
    (h : (checkReference located text reference id).run a = (.ok result, after)) :
    after = a ∧ (checkReference located text reference id).run b = (.ok result, b) := by
  cases hd : a.definitions[id]? with
  | none =>
    unfold checkReference at h
    rw [run_get_bind, hd] at h
    cases h
  | some d =>
    obtain ⟨outcome, hrun⟩ := checkReference_of_getElem? located text reference id d
    rw [hrun a hd] at h
    cases h
    exact ⟨rfl, hrun b (hab.getElem? hd)⟩

/-- While files behind references are read, only names without empty segments are added. -/
theorem chainInvariant_follows (tree : FileTree) (root : Path) (start : TypeTable) :
    ChainInvariant tree root (fun source _ => Regular source.name)
      (fun chain table => Open chain table ∧ start.Follows table) where
  located := by
    rintro target text ⟨_, _, reference, _, hread, hlocate⟩ -
    exact Reference.regular_of_locate hread hlocate
  opens := fun chain name table hname hfree h =>
    ⟨(chainInvariant_open tree root).opens chain name table hname hfree h.1, h.2⟩
  closes := fun chain name table h =>
    ⟨(chainInvariant_open tree root).closes chain name table h.1, h.2⟩
  reads := by
    intro front source text hnew hregular chain hresolve
    refine triple_conseq (triple_elaborateText hresolve source text) (fun _ h => h) ?_ fun _ h => h
    rintro d table ⟨⟨hopen, hfollows⟩, hvalid, hname⟩
    exact ⟨⟨hopen, hfollows⟩, fun haccepts =>
      ⟨hopen.push hnew hvalid hname haccepts, hfollows.push (hname ▸ hregular) haccepts⟩⟩

/-- What a reference has loaded is looked up from then on. -/
theorem settles_resolver (tree : FileTree) (root : Path) (chain : List String)
    (source : SourceFile) (located : LineFault → SchemaError) (written : String) :
    Settles (Open chain) (resolver tree root chain source located written)
      (lookup tree root source located written) := by
  intro table result after hopen hrun
  unfold lookup
  cases hread : Reference.read? source.nameSpace written with
  | none =>
    rw [resolver_of_read?_eq_none hread] at hrun
    cases hrun
  | some reference =>
  dsimp only
  cases hlocate : reference.locate tree root written located with
  | error e =>
    rw [resolver_of_locate_eq_error hread hlocate] at hrun
    cases hrun
  | ok target =>
  dsimp only
  rw [resolver_of_locate_eq_ok hread hlocate, follow, run_get_bind] at hrun
  cases hfound : table.find? reference.fullName with
  | some id =>
    rw [hfound] at hrun
    dsimp only at hrun
    obtain ⟨rfl, -⟩ := checkReference_grows (TypeTable.Grows.refl table) hrun
    refine ⟨.refl _, fun later hlater => ?_⟩
    rw [run_get_bind, hlater.grows.find? hfound]
    exact (checkReference_grows hlater.grows hrun).2
  | none =>
  rw [hfound] at hrun
  dsimp only at hrun
  split at hrun
  · cases hrun
  next hchain =>
  have htarget : target.name ∉ chain := fun hmem => hchain (Or.inr hmem)
  have hregular := Reference.regular_of_locate hread hlocate
  obtain ⟨targetText, middle, hreadSource, hrest⟩ := run_bind_eq_ok hrun
  obtain ⟨-, rfl⟩ := readSource_eq_ok hreadSource
  rw [run_get_bind] at hrest
  split at hrest
  · cases hrest
  next hfree =>
  obtain ⟨id, loaded, hload, hcheck⟩ := run_bind_eq_ok hrest
  obtain ⟨rfl, -⟩ := checkReference_grows (TypeTable.Grows.refl loaded) hcheck
  -- The file behind the reference was loaded, and is found by its name.
  have hbelow := (chainInvariant_open tree root).opens chain target.name table htarget
    (by simpa using hfree) hopen
  have hfollows := (triple_loadDefinition (chainInvariant_follows tree root table) htarget
    targetText hregular table ⟨hbelow, .refl table⟩).2
  rw [Reader.behind] at hload
  rw [hload] at hfollows
  have hloaded := find?_of_loadDefinition hload
  refine ⟨hfollows.2, fun later hlater => ?_⟩
  have hlook : (later.find? reference.fullName <|> later.find? target.name) = some id := by
    by_cases hname : reference.fullName = target.name
    · rw [hname, hlater.grows.find? hloaded]
      rfl
    · have hirregular : ¬Regular reference.fullName :=
        fun h => hname (Reference.name_of_locate_of_regular hread hlocate h).symm
      rw [(hfollows.2.trans hlater).find?_eq_none hirregular hfound, hlater.grows.find? hloaded]
      rfl
  rw [run_get_bind, hlook]
  exact (checkReference_grows hlater.grows hcheck).2

/-- A file that was read is read again from the table that it has left, without loading. -/
theorem run_lookup_of_run_resolver {tree : FileTree} {root : Path} {chain : List String}
    {source : SourceFile} {text : String} {start after : TypeTable} {d : Definition}
    (hopen : Open chain start)
    (h : (elaborateText (resolver tree root chain source) source text).run start = (.ok d, after)) :
    (elaborateText (lookup tree root source) source text).run after = (.ok d, after) := by
  have hresolve := resolves_resolver_of_chainInvariant (chainInvariant_open tree root) chain source
  have hsettles := settles_elaborateText hresolve
    (settles_resolver tree root chain source) source text
  exact (hsettles start d after hopen h).2 after (.refl after)

end Load

end BusSchema
