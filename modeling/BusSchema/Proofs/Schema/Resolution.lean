import BusSchema.Proofs.Schema.Denotation
import BusSchema.Proofs.Schema.Origin

/-!
# Resolving references

A reference that is resolved leads to a definition of the name that it denotes, whatever the table
holds and whichever names are being read (`Load.resolver_eq_ok`).  While a tree is loaded, files are
read inside of each other, each from a table that was reached by then (`Load.Visits`), and no table
on the way loses a definition (`Load.grows_of_visits`).  So a name is resolved to one position of
the table all through the loading of a tree and after it (`Load.references_of_loadSelected`).
-/

namespace BusSchema

namespace Load

variable {α β : Type} {tree : FileTree} {root : Path} {chain : List String} {source : SourceFile}
  {resolve : Resolver} {located : LineFault → SchemaError} {start table middle : TypeTable}

/-! ## Single references -/

theorem found_of_checkReference {written : String} {reference : Reference} {id result : Nat}
    {table after : TypeTable}
    (h : (checkReference located written reference id).run table = (.ok result, after)) :
    result = id ∧ after = table ∧ ∃ d, after.definitions[id]? = some d ∧ d.isService = false ∧
      ∀ wanted ∈ reference.version, d.version = wanted := by
  have hkeeps := keeps_checkReference located written reference id table
  rw [h] at hkeeps
  obtain rfl : after = table := hkeeps
  obtain ⟨rfl, hd⟩ := checkReference_eq_ok h
  exact ⟨rfl, rfl, hd⟩

/--
A reference that is resolved leads to a message with the version that it asks for, by the name that
it is read as or by the name of the file that it leads to.
-/
theorem resolver_eq_ok {written : String} {id : Nat} {table after : TypeTable}
    (h : (resolver tree root chain source located written).run table = (.ok id, after)) :
    ∃ reference target d, Reference.read? source.nameSpace written = some reference ∧
      reference.locate tree root written located = .ok target ∧
      after.definitions[id]? = some d ∧ (d.name = reference.fullName ∨ d.name = target.name) ∧
      d.isService = false ∧ ∀ wanted ∈ reference.version, d.version = wanted := by
  cases hread : Reference.read? source.nameSpace written with
  | none =>
    rw [resolver_of_read?_eq_none hread] at h
    cases h
  | some reference =>
  cases hlocate : reference.locate tree root written located with
  | error e =>
    rw [resolver_of_locate_eq_error hread hlocate] at h
    cases h
  | ok target =>
  rw [resolver_of_locate_eq_ok hread hlocate, follow, run_get_bind] at h
  split at h
  · next found hfound =>
    obtain ⟨rfl, rfl, d, hd, hservice, hversion⟩ := found_of_checkReference h
    obtain ⟨other, hother, hname⟩ := TypeTable.getElem?_of_find? hfound
    cases hother.symm.trans hd
    exact ⟨reference, target, d, rfl, hlocate, hd, .inl hname, hservice, hversion⟩
  split at h
  · cases h
  obtain ⟨text, before, htext, hrest⟩ := run_bind_eq_ok h
  rw [run_get_bind] at hrest
  split at hrest
  · cases hrest
  obtain ⟨found, loaded, hload, hlast⟩ := run_bind_eq_ok hrest
  obtain ⟨rfl, rfl, d, hd, hservice, hversion⟩ := found_of_checkReference hlast
  obtain ⟨added, middle, -, hname, rfl, haccepts, rfl⟩ := loadDefinition_eq_ok hload
  obtain rfl : added = d := by simpa [TypeTable.size] using hd
  exact ⟨reference, target, added, rfl, hlocate, hd, .inr hname, hservice, hversion⟩

/--
The reference in the file denotes the name, with or without a version, where segments start with
letters or underscores.  If a number of the version has more than 32 bits, this has to hold of the
definition too that the reference leads to.
-/
structure AsksFor (source : SourceFile) (written name : String) (version : Option Version)
    (d : Definition) : Prop where
  nameSpace : source.nameSpace = "" ∨ Regular source.nameSpace
  denotes : Reference.Denotes source.nameSpace written name version
  numbers : Reference.Asks32 version ∨ ∀ segment ∈ Text.split '.' d.name, Reference.Lettered segment

/-- No segment of the name that a reference is read as is empty. -/
theorem AsksFor.regular {written name : String} {version : Option Version} {d : Definition}
    (h : AsksFor source written name version d) {reference : Reference}
    (hread : Reference.read? source.nameSpace written = some reference) :
    Regular reference.fullName :=
  Reference.regular_fullName h.nameSpace (Reference.regular_of_denotes h.denotes) hread

/-- A reference that is resolved leads to the definition that it denotes. -/
theorem denoted_of_resolver {written : String} {id : Nat} {table after : TypeTable}
    (h : (resolver tree root chain source located written).run table = (.ok id, after)) :
    ∃ d, after.definitions[id]? = some d ∧ d.isService = false ∧
      ∀ name version, AsksFor source written name version d →
        d.name = name ∧ ∀ wanted ∈ version, d.version = wanted := by
  obtain ⟨reference, target, d, hread, hlocate, hd, hname, hservice, hversion⟩ := resolver_eq_ok h
  refine ⟨d, hd, hservice, fun name version hasks => ?_⟩
  have htarget := Reference.name_of_locate_of_regular hread hlocate (hasks.regular hread)
  have hfull : d.name = reference.fullName := hname.elim (fun h => h) fun h => h.trans htarget
  obtain ⟨rfl, rfl⟩ :=
    Reference.fullName_of_denotes hasks.denotes hread (hfull ▸ hasks.numbers)
  exact ⟨hfull, hversion⟩

/-! ## Tables on the way -/

/-- No definition gets lost. -/
def Growing (x : Load α) : Prop := ∀ table : TypeTable, table.Grows (x.run table).2

theorem growing_iff_triple {x : Load α} :
    Growing x ↔ Triple (fun _ => True) x (fun _ _ => True) (fun _ => True) := by
  constructor
  · intro h table _
    refine ⟨h table, ?_⟩
    split <;> trivial
  · exact fun h table => (h table trivial).1

theorem chainInvariant_true (tree : FileTree) (root : Path) :
    ChainInvariant tree root (fun _ _ => True) (fun _ _ => True) where
  located := fun _ _ _ _ => trivial
  opens := fun _ _ _ _ _ _ => trivial
  closes := fun _ _ _ _ => trivial
  reads := by
    intro front source text _ _ chain hresolve
    exact triple_conseq (triple_elaborateText hresolve source text) (fun _ h => h)
      (fun _ _ _ => ⟨trivial, fun _ => trivial⟩) fun _ h => h

theorem growing_bind {x : Load β} {f : β → Load α} (hx : Growing x) (hf : ∀ b, Growing (f b)) :
    Growing (x >>= f) :=
  growing_iff_triple.mpr <|
    triple_bind (growing_iff_triple.mp hx) fun b => growing_iff_triple.mp (hf b)

theorem growing_pure (a : α) : Growing (pure a : Load α) := fun table => TypeTable.Grows.refl table

theorem growing_ofLine (located : LineFault → SchemaError) (result : Except LineFault α) :
    Growing (ofLine located result) :=
  growing_iff_triple.mpr (triple_ofLine (fun _ _ _ _ => trivial) fun _ _ => trivial)

theorem growing_insert (d : Definition) : Growing (insert d) :=
  growing_iff_triple.mpr (triple_insert (fun _ _ _ => trivial) fun _ _ => trivial)

theorem growing_get_ofLine (located : LineFault → SchemaError)
    (f : TypeTable → Except LineFault α) :
    Growing (get >>= fun table => ofLine located (f table)) :=
  growing_bind (fun table => TypeTable.Grows.refl table) fun _ => growing_ofLine _ _

/-- A computation that comes through a table keeps what is in it. -/
def Through (x : Load α) (start middle : TypeTable) : Prop := middle.Grows (x.run start).2

theorem through_bind {x : Load β} {f : β → Load α} (h : Through x start middle)
    (hf : ∀ b, Growing (f b)) : Through (x >>= f) start middle := by
  rw [Through, run_bind]
  unfold Through at h
  rcases hx : x.run start with ⟨result, after⟩
  rw [hx] at h
  cases result with
  | ok b => exact h.trans (hf b after)
  | error e => exact h

theorem through_bind_of_run {x : Load β} {f : β → Load α} {b : β}
    (hx : x.run start = (.ok b, table)) (h : Through (f b) table middle) :
    Through (x >>= f) start middle := by
  rw [Through, run_bind, hx]
  exact h

theorem through_self (x : Load α) (table : TypeTable) : Through x table (x.run table).2 :=
  TypeTable.Grows.refl _

theorem growing_loadSource (source : SourceFile) : Growing (loadSource tree root source) :=
  growing_iff_triple.mpr (triple_loadSource (chainInvariant_true tree root) fun _ _ => trivial)

theorem growing_forM {f : α → Load Unit} {items : List α} (h : ∀ a ∈ items, Growing (f a)) :
    Growing (items.forM f) := by
  induction items with
  | nil => exact growing_pure ()
  | cons a rest ih =>
    obtain ⟨hfirst, hrest⟩ := List.forall_mem_cons.mp h
    exact growing_bind hfirst fun _ => ih hrest

theorem through_forM {f : α → Load Unit} {front back : List α} {a : α}
    (hfront : (front.forM f).run start = (.ok (), table)) (h : Through (f a) table middle)
    (hback : ∀ b ∈ back, Growing (f b)) : Through ((front ++ a :: back).forM f) start middle := by
  induction front generalizing start with
  | nil =>
    cases hfront
    exact through_bind h fun _ => growing_forM hback
  | cons first rest ih =>
    obtain ⟨_, between, hfirst, hrest⟩ := run_bind_eq_ok hfront
    exact through_bind_of_run hfirst (ih hrest)

section Elaboration

variable (hresolve : Resolves (fun _ => True) resolve)

include hresolve

theorem growing_elaborateType (located : LineFault → SchemaError) (cast : CastMode)
    (expr : TypeExpr) : Growing (elaborateType resolve located cast expr) :=
  fun table => (triple_elaborateType hresolve located cast expr table trivial).1

theorem growing_elaborateLine (located : LineFault → SchemaError) (draft : DefinitionDraft)
    (line : List Char) : Growing (elaborateLine resolve located draft line) := by
  unfold elaborateLine
  split
  · exact growing_pure _
  split
  · exact fun table => TypeTable.Grows.refl table
  next statement _ =>
  cases statement with
  | separator => exact growing_ofLine _ _
  | directive name hasArgument => exact growing_ofLine _ _
  | member attr =>
    exact growing_bind (growing_elaborateType hresolve _ _ _) fun _ =>
      growing_bind (growing_ofLine _ _) fun _ => growing_get_ofLine _ _

theorem growing_elaborateLines (path : String) (number : Nat) (lines : List (List Char))
    (draft : DefinitionDraft) : Growing (elaborateLines resolve path number lines draft) := by
  induction lines generalizing number draft with
  | nil => exact growing_pure _
  | cons line rest ih =>
    exact growing_bind (growing_elaborateLine hresolve _ draft line) fun next =>
      ih (number + 1) next

end Elaboration

/-- A line with a reference comes through the table that resolving it leaves. -/
theorem through_elaborateLine {line : List Char} {written : String}
    (hwritten : written ∈ referencesIn line) (draft : DefinitionDraft) :
    Through (elaborateLine resolve located draft line) table
      ((resolve located written).run table).2 := by
  have hscalar : ∀ cast expr, written ∈ ScalarExpr.references expr →
      Through (elaborateScalar resolve located cast expr) table
        ((resolve located written).run table).2 := by
    intro cast expr hmem
    cases expr with
    | padding digits => cases hmem
    | boolean => cases hmem
    | numeric kind digits => cases hmem
    | named reference =>
      rw [List.mem_singleton.mp hmem]
      exact through_bind (through_self _ table) fun _ => growing_pure _
  have htype : ∀ cast expr, written ∈ TypeExpr.references expr →
      Through (elaborateType resolve located cast expr) table
        ((resolve located written).run table).2 := by
    intro cast expr hmem
    cases expr with
    | scalar type => exact hscalar cast type hmem
    | array element bound =>
      exact through_bind (hscalar cast element hmem) fun _ => growing_get_ofLine _ _
  unfold referencesIn at hwritten
  split at hwritten
  · cases hwritten
  next statement hread =>
  cases statement with
  | separator => cases hwritten
  | directive name hasArgument => cases hwritten
  | member attr =>
    have hstatement : elaborateLine resolve located draft line =
        elaborateStatement resolve located draft (.member attr) := by
      unfold elaborateLine
      split
      · next hblank =>
        rw [hblank] at hread
        cases hread
      · rw [hread]
    rw [hstatement]
    exact through_bind (htype attr.cast attr.type hwritten) fun _ =>
      growing_bind (growing_ofLine _ _) fun _ => growing_get_ofLine _ _

/-! ## Files on the way -/

/--
Reading the text of a file comes to a reference in one of its lines, with this table.  The lines
before it have been read then.
-/
def Reaches (tree : FileTree) (root : Path) (chain : List String) (source : SourceFile)
    (text : String) (start : TypeTable) (index : Nat) (written : String) (table : TypeTable) :
    Prop :=
  ∃ front line back draft, Text.lines text.toList = front ++ line :: back ∧
    front.length = index ∧ written ∈ referencesIn line ∧
    (elaborateLines (resolver tree root chain source) source.path.text 1 front {}).run start =
      (.ok draft, table)

theorem through_elaborateLines {path : String} {number : Nat} {front : List (List Char)}
    (back : List (List Char)) {line : List Char} {draft next : DefinitionDraft} {written : String}
    (hresolve : Resolves (fun _ => True) resolve)
    (hfront : (elaborateLines resolve path number front draft).run start = (.ok next, table))
    (hwritten : written ∈ referencesIn line) :
    Through (elaborateLines resolve path number (front ++ line :: back) draft) start
      ((resolve (.line path (number + front.length)) written).run table).2 := by
  induction front generalizing number draft start with
  | nil =>
    cases hfront
    exact through_bind (through_elaborateLine hwritten next) fun next =>
      growing_elaborateLines hresolve path _ back next
  | cons first rest ih =>
    obtain ⟨between, middle, hfirst, hrest⟩ := run_bind_eq_ok hfront
    rw [List.length_cons, Nat.add_comm rest.length, ← Nat.add_assoc]
    exact through_bind_of_run hfirst (ih hrest)

theorem grows_of_reaches {text written : String} {index : Nat}
    (h : Reaches tree root chain source text start index written table) : start.Grows table := by
  obtain ⟨front, line, back, draft, -, -, -, hrun⟩ := h
  have hresolve := resolves_resolver_of_chainInvariant (chainInvariant_true tree root) chain source
  have hlines := growing_elaborateLines hresolve source.path.text 1 front {} start
  rwa [hrun] at hlines

/-- Reading a file comes through the table that resolving one of its references leaves. -/
theorem through_loadDefinition {text written : String} {index : Nat}
    (h : Reaches tree root chain source text start index written table) :
    Through (loadDefinition tree root chain source text) start
      ((resolver tree root chain source (.line source.path.text (index + 1)) written).run
        table).2 := by
  obtain ⟨front, line, back, draft, hlines, rfl, hwritten, hfront⟩ := h
  have hresolve := resolves_resolver_of_chainInvariant (chainInvariant_true tree root) chain source
  have hthrough := through_elaborateLines back hresolve hfront hwritten
  rw [← hlines, Nat.add_comm 1] at hthrough
  rw [loadDefinition_eq]
  exact through_bind (through_bind hthrough fun _ => growing_pure _) fun _ => growing_insert _

/--
While a tree is loaded, the text of a file is read from the table, with the names of the chain being
read.  A selected file is read after those before it, and another file at the first reference to it.
After the loading, any text may be read from a table that has grown from the loaded one.
-/
inductive Visits (tree : FileTree) (root : Path) :
    List String → SourceFile → String → TypeTable → Prop
  | selected {front back : List SourceFile} {source : SourceFile} {text : String}
      {table : TypeTable} :
      selectSources tree root = .ok (front ++ source :: back) →
      (front.forM (loadSource tree root)).run {} = (.ok (), table) →
      table.contains source.name = false → tree.read? source.path = .ok text →
      Visits tree root [source.name] source text table
  | referred {chain : List String} {source target : SourceFile} {text written targetText : String}
      {start table : TypeTable} {index : Nat} {reference : Reference} :
      Visits tree root chain source text start →
      Reaches tree root chain source text start index written table →
      Reference.read? source.nameSpace written = some reference →
      reference.locate tree root written (.line source.path.text (index + 1)) = .ok target →
      table.find? reference.fullName = none → reference.fullName ∉ chain → target.name ∉ chain →
      tree.read? target.path = .ok targetText → table.contains target.name = false →
      Visits tree root (chain ++ [target.name]) target targetText table
  | afterwards {chain : List String} {source : SourceFile} {text : String}
      {loaded table : TypeTable} :
      TypeTable.ofTree tree root = .ok loaded → loaded.Grows table →
      Visits tree root chain source text table

/-- The table that is left when a tree was loaded, or when that failed. -/
def leftBy (tree : FileTree) (root : Path) : TypeTable :=
  ((loadSelected tree root).run .empty).2

/-- A selected file is read on the way to the table that loading the tree leaves. -/
theorem grows_of_selected {front back : List SourceFile} {text : String}
    (hsources : selectSources tree root = .ok (front ++ source :: back))
    (hfront : (front.forM (loadSource tree root)).run {} = (.ok (), table))
    (hnew : table.contains source.name = false) (hread : tree.read? source.path = .ok text) :
    ((loadDefinition tree root [source.name] source text).run table).2.Grows
      (leftBy tree root) := by
  have hnewText : Through (loadNew tree root source text) table
      ((loadDefinition tree root [source.name] source text).run table).2 := by
    rw [Through, run_loadNew, hnew]
    exact TypeTable.Grows.refl _
  have hsource : Through (loadSource tree root source) table
      ((loadDefinition tree root [source.name] source text).run table).2 := by
    have hreads : (readSource tree source).run table = (.ok text, table) := by
      rw [readSource, hread]
      rfl
    unfold loadSource loadSourceWith
    rw [Through, run_get_bind, hnew]
    exact through_bind_of_run hreads (through_bind hnewText fun _ => growing_pure ())
  rw [leftBy, loadSelected, loadSelectedWith, hsources]
  exact through_forM hfront hsource fun s _ => growing_loadSource s

/-- A file behind a reference is read on the way to the table that resolving it leaves. -/
theorem grows_of_referred {target : SourceFile} {written targetText : String}
    {reference : Reference} (hreference : Reference.read? source.nameSpace written = some reference)
    (hlocate : reference.locate tree root written located = .ok target)
    (hnone : table.find? reference.fullName = none) (hname : reference.fullName ∉ chain)
    (htarget : target.name ∉ chain) (hread : tree.read? target.path = .ok targetText)
    (hnew : table.contains target.name = false) :
    Through (resolver tree root chain source located written) table
      ((loadDefinition tree root (chain ++ [target.name]) target targetText).run table).2 := by
  have hreads : (readSource tree target).run table = (.ok targetText, table) := by
    rw [readSource, hread]
    rfl
  have hopen : ¬(reference.fullName ∈ chain ∨ target.name ∈ chain) := not_or.mpr ⟨hname, htarget⟩
  rw [resolver_of_locate_eq_ok hreference hlocate, follow, Through, run_get_bind, hnone]
  dsimp only
  rw [dif_neg hopen]
  refine through_bind_of_run hreads ?_
  rw [Through, run_get_bind, hnew]
  refine through_bind (through_self _ table) fun id table => ?_
  rw [keeps_checkReference]
  exact TypeTable.Grows.refl table

/-- A file is read on the way to the table that loading the tree leaves, or from there on. -/
theorem grows_of_visits {text : String} (h : Visits tree root chain source text start) :
    ((loadDefinition tree root chain source text).run start).2.Grows (leftBy tree root) ∨
      ∃ loaded, TypeTable.ofTree tree root = .ok loaded ∧ loaded.Grows start := by
  induction h with
  | selected hsources hfront hnew hread =>
    exact .inl (grows_of_selected hsources hfront hnew hread)
  | afterwards htree hgrows => exact .inr ⟨_, htree, hgrows⟩
  | @referred chain source target text written targetText start table index reference _ hreaches
      hreference hlocate hnone hname htarget hread hnew ih =>
    have hresolver := grows_of_referred hreference hlocate hnone hname htarget hread hnew
    rcases ih with hduring | ⟨loaded, htree, hgrows⟩
    · exact .inl (hresolver.trans ((through_loadDefinition hreaches).trans hduring))
    · exact .inr ⟨loaded, htree, hgrows.trans (grows_of_reaches hreaches)⟩

/--
While a tree is loaded, or afterwards, the reference that is written in a line of a file is resolved
to the definition at the position.
-/
def ResolvedTo (tree : FileTree) (root : Path) (source : SourceFile) (written : String) (id : Nat)
    (d : Definition) : Prop :=
  ∃ chain text start index table after, Visits tree root chain source text start ∧
    Reaches tree root chain source text start index written table ∧
    (resolver tree root chain source (.line source.path.text (index + 1)) written).run table =
      (.ok id, after) ∧
    after.definitions[id]? = some d

/-- The table that a tree is loaded into has the names of all files behind references. -/
theorem find?_of_located {loaded : TypeTable} (htree : TypeTable.ofTree tree root = .ok loaded)
    {target : SourceFile} (h : Located tree root target) :
    ∃ id, loaded.find? target.name = some id := by
  obtain ⟨sources, hsources, -, hnames⟩ := sourced_of_ofTree htree
  exact Option.isSome_iff_exists.mp (hnames target (mem_of_located hsources h))

/-- What a reference is resolved to stays at its position in the table that the tree leaves. -/
theorem getElem?_leftBy_of_resolvedTo {written name : String} {id : Nat} {d : Definition}
    {version : Option Version} (h : ResolvedTo tree root source written id d)
    (hasks : AsksFor source written name version d) :
    (leftBy tree root).definitions[id]? = some d := by
  obtain ⟨chain, text, start, index, table, after, hvisits, hreaches, hrun, hd⟩ := h
  rcases grows_of_visits hvisits with hduring | ⟨loaded, htree, hstart⟩
  · have hthrough := through_loadDefinition hreaches
    rw [hrun] at hthrough
    exact (hthrough.trans hduring).getElem? hd
  · have hleft : leftBy tree root = loaded := by rw [leftBy, run_loadSelected_of_ofTree htree]
    have hgrows := hstart.trans (grows_of_reaches hreaches)
    obtain ⟨reference, target, -, hread, hlocate, -⟩ := resolver_eq_ok hrun
    have htarget := Reference.name_of_locate_of_regular hread hlocate (hasks.regular hread)
    obtain ⟨found, hfound⟩ := find?_of_located htree ⟨_, written, reference, _, hread, hlocate⟩
    rw [htarget] at hfound
    have hlater := hgrows.find? hfound
    rw [resolver_of_locate_eq_ok hread hlocate, follow, run_get_bind, hlater] at hrun
    obtain ⟨rfl, rfl, -⟩ := found_of_checkReference hrun
    obtain ⟨other, hother, -⟩ := TypeTable.getElem?_of_find? hfound
    cases (hgrows.getElem? hother).symm.trans hd
    rw [hleft]
    exact hother

/--
From every table and for every chain, a reference is only resolved to the definition that it
denotes: one of the full name, with the version that is asked for, and no service.  All references
that denote one full name are resolved to one position of the table, from the first one that is
resolved while a tree is loaded to those that are resolved after it was loaded.
-/
theorem references_of_loadSelected (tree : FileTree) (root : Path) :
    (∀ chain source located written table id after,
      (resolver tree root chain source located written).run table = (.ok id, after) →
      ∃ d, after.definitions[id]? = some d ∧ d.isService = false ∧
        ∀ name version, AsksFor source written name version d →
          d.name = name ∧ ∀ wanted ∈ version, d.version = wanted) ∧
    ∀ a b writtenA writtenB idA idB dA dB, ResolvedTo tree root a writtenA idA dA →
      ResolvedTo tree root b writtenB idB dB →
      ∀ name versionA versionB, AsksFor a writtenA name versionA dA →
        AsksFor b writtenB name versionB dB → idA = idB := by
  refine ⟨fun _ _ _ _ _ _ _ h => denoted_of_resolver h, ?_⟩
  intro a b writtenA writtenB idA idB dA dB hA hB name versionA versionB hasksA hasksB
  have hname : ∀ {source written id d version}, ResolvedTo tree root source written id d →
      AsksFor source written name version d → (leftBy tree root).find? name = some id := by
    intro source written id d version h hasks
    have hleft := getElem?_leftBy_of_resolvedTo h hasks
    obtain ⟨chain, text, start, index, table, after, -, -, hrun, hd⟩ := h
    obtain ⟨found, hfound, -, hdenoted⟩ := denoted_of_resolver hrun
    cases hfound.symm.trans hd
    rw [← (hdenoted name version hasks).1]
    exact (leftBy tree root).find?_name hleft
  exact Option.some.inj ((hname hA hasksA).symm.trans (hname hB hasksB))

/-- A name in a namespace with its version, and the same name in a file of that namespace. -/
theorem references_of_loadSelected_two_forms :
    let root := Path.ofText "r"
    let tree := FileTree.ofTexts [("r/A.uavcan", "n.B.1.0 b\n"), ("r/n/B.1.0.uavcan", "uint8 x\n"),
      ("r/n/C.uavcan", "# comment\nB[2] b\n")]
    let file := fun path header nameSpace => (⟨Path.ofText path, header, nameSpace⟩ : SourceFile)
    let a := file "r/A.uavcan" ⟨"A", 0, {}⟩ ""
    let c := file "r/n/C.uavcan" ⟨"C", 0, {}⟩ "n"
    ∃ d, ResolvedTo tree root a "n.B.1.0" 0 d ∧ AsksFor a "n.B.1.0" "n.B" (some ⟨1, 0⟩) d ∧
      ResolvedTo tree root c "B" 0 d ∧ AsksFor c "B" "n.B" none d ∧
      (d.name = "n.B" ∧ d.version = ⟨1, 0⟩ ∧ d.isService = false) ∧
      ∀ id, ResolvedTo tree root c "B" id d → id = 0 := by
  intro root tree file a c
  let b := file "r/n/B.1.0.uavcan" ⟨"B", 0, ⟨1, 0⟩⟩ "n"
  have hsources : selectSources tree root = .ok [a, b, c] := by decide +kernel
  let before := (([a, b] : List SourceFile).forM (loadSource tree root)).run {}
  let first := (resolver tree root [a.name] a (.line a.path.text 1) "n.B.1.0").run {}
  let second := (resolver tree root [c.name] c (.line c.path.text 2) "B").run before.2
  have hbefore : before = (.ok (), before.2) := Prod.ext (by decide +kernel) rfl
  have hfirst : first = (.ok 0, first.2) := Prod.ext (by decide +kernel) rfl
  have hsecond : second = (.ok 0, second.2) := Prod.ext (by decide +kernel) rfl
  have hfound : (first.2.definitions[0]?).isSome = true := by decide +kernel
  have hsame : second.2.definitions[0]? = first.2.definitions[0]? := by decide +kernel
  obtain ⟨d, hd⟩ := Option.isSome_iff_exists.mp hfound
  have hletters : ∀ segment ∈ ["n", "B"], Reference.Lettered segment := by
    intro segment hsegment
    rcases List.mem_pair.mp hsegment with rfl | rfl
    · exact ⟨'n', rfl, rfl⟩
    · exact ⟨'B', rfl, rfl⟩
  have hsplitA : Text.split '.' "n.B.1.0" = ["n"] ++ "B" :: ["1", "0"] := by decide +kernel
  have hsplitC : Text.split '.' "B" = "B" :: [] := by decide +kernel
  have hasksA : AsksFor a "n.B.1.0" "n.B" (some ⟨1, 0⟩) d := by
    refine ⟨.inl rfl, .qualified hsplitA (by simp) hletters
      (.versioned ⟨by decide, List.all_eq_true.mp rfl⟩ ⟨by decide, List.all_eq_true.mp rfl⟩),
      .inl ?_⟩
    rintro _ ⟨⟩
    decide
  have hasksC : AsksFor c "B" "n.B" none d :=
    ⟨.inr (show "" ∉ Text.split '.' "n" by decide +kernel),
      .unqualified hsplitC (hletters "B" (by simp)) .unversioned, .inl nofun⟩
  have hstart : selectSources tree root = .ok ([] ++ a :: [b, c]) := hsources
  have hend : selectSources tree root = .ok ([a, b] ++ c :: []) := hsources
  have hvisitsA : Visits tree root [a.name] a "n.B.1.0 b\n" {} :=
    .selected hstart rfl (by decide +kernel) (by decide +kernel)
  have hvisitsC : Visits tree root [c.name] c "# comment\nB[2] b\n" before.2 :=
    .selected hend hbefore (by decide +kernel) (by decide +kernel)
  have hA : ResolvedTo tree root a "n.B.1.0" 0 d :=
    ⟨_, _, _, 0, _, _, hvisitsA, ⟨[], "n.B.1.0 b".toList, [], {}, by decide +kernel, rfl,
      by decide +kernel, rfl⟩, hfirst, hd⟩
  have hC : ResolvedTo tree root c "B" 0 d :=
    ⟨_, _, _, 1, _, _, hvisitsC, ⟨["# comment".toList], "B[2] b".toList, [], {}, by decide +kernel,
      rfl, by decide +kernel, rfl⟩, hsecond, hsame.trans hd⟩
  obtain ⟨hdenoted, honce⟩ := references_of_loadSelected tree root
  obtain ⟨found, hfoundAt, hservice, hnamed⟩ := hdenoted _ _ _ _ _ _ _ hfirst
  cases hfoundAt.symm.trans hd
  obtain ⟨hname, hversion⟩ := hnamed _ _ hasksA
  exact ⟨d, hA, hasksA, hC, hasksC, ⟨hname, hversion _ rfl, hservice⟩,
    fun id hid => honce _ _ _ _ _ _ _ _ hid hA _ _ _ hasksC hasksA⟩

end Load

end BusSchema
