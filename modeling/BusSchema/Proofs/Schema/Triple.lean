import BusSchema.Schema.Load

/-!
# Reasoning about loading

`Load.Triple` relates the table before a step of loading to the result and the table after it.  A
step never takes a definition away again, so every triple also says that the table grows.

`triple_loadDefinition` carries an invariant through the recursion over references: what is left to
show is that the definition in a single text may be added to the table (`ChainInvariant`).  The
invariant then holds after the files of a whole tree were read (`triple_loadSelected`).
-/

namespace BusSchema

namespace TypeTable

/-- The later table starts with the definitions of the earlier one. -/
def Grows (earlier later : TypeTable) : Prop := earlier.definitions <+: later.definitions

theorem Grows.refl (table : TypeTable) : table.Grows table := List.prefix_refl _

theorem Grows.trans {a b c : TypeTable} (hab : a.Grows b) (hbc : b.Grows c) : a.Grows c :=
  List.IsPrefix.trans hab hbc

theorem grows_push {table : TypeTable} {d : Definition} (h : table.Accepts d) :
    table.Grows (table.push d h).2 :=
  List.prefix_append _ _

end TypeTable

namespace Load

variable {α β : Type} {pre : TypeTable → Prop} {post : α → TypeTable → Prop}
  {fault : TypeTable → Prop}

/--
From a table with the precondition, a result comes with a table as in the postcondition, and an
error leaves a table as in the last condition.
-/
def Triple (pre : TypeTable → Prop) (x : Load α) (post : α → TypeTable → Prop)
    (fault : TypeTable → Prop) : Prop :=
  ∀ table, pre table →
    table.Grows (x.run table).2 ∧
      match (x.run table).1 with
      | .ok a => post a (x.run table).2
      | .error _ => fault (x.run table).2

theorem triple_pure {a : α} (h : ∀ table, pre table → post a table) :
    Triple pre (pure a) post fault := by
  intro table htable
  exact ⟨TypeTable.Grows.refl table, h table htable⟩

theorem triple_throw {e : SchemaError} (h : ∀ table, pre table → fault table) :
    Triple pre (throw e) post fault := by
  intro table htable
  exact ⟨TypeTable.Grows.refl table, h table htable⟩

theorem run_bind (x : Load β) (f : β → Load α) (table : TypeTable) :
    (x >>= f).run table =
      match x.run table with
      | (.ok b, after) => (f b).run after
      | (.error e, after) => (.error e, after) := by
  rw [ExceptT.run_bind]
  rcases hx : x.run table with ⟨result, after⟩
  have hbind : ∀ g : Except SchemaError β → StateM TypeTable (Except SchemaError α),
      (x.run >>= g) table = g result after := by
    intro g
    change g (x.run table).1 (x.run table).2 = g result after
    rw [hx]
  rw [hbind]
  cases result with
  | ok b => rfl
  | error e => rfl

theorem run_bind_eq_ok {x : Load β} {f : β → Load α} {table after : TypeTable} {a : α}
    (h : (x >>= f).run table = (.ok a, after)) :
    ∃ b middle, x.run table = (.ok b, middle) ∧ (f b).run middle = (.ok a, after) := by
  rw [run_bind] at h
  cases hx : x.run table with
  | mk result middle =>
    rw [hx] at h
    cases result with
    | error e => cases h
    | ok b => exact ⟨b, middle, rfl, h⟩

theorem run_bind_eq_error {x : Load β} {f : β → Load α} {table after : TypeTable}
    {e : SchemaError} (h : (x >>= f).run table = (.error e, after)) :
    x.run table = (.error e, after) ∨
      ∃ b middle, x.run table = (.ok b, middle) ∧ (f b).run middle = (.error e, after) := by
  rw [run_bind] at h
  cases hx : x.run table with
  | mk result middle =>
    rw [hx] at h
    cases result with
    | error fault =>
      cases h
      exact Or.inl rfl
    | ok b => exact Or.inr ⟨b, middle, rfl, h⟩

theorem triple_bind {x : Load β} {f : β → Load α} {middle : β → TypeTable → Prop}
    (hx : Triple pre x middle fault) (hf : ∀ b, Triple (middle b) (f b) post fault) :
    Triple pre (x >>= f) post fault := by
  intro table htable
  obtain ⟨hgrows, hresult⟩ := hx table htable
  rw [run_bind]
  cases hrun : x.run table with
  | mk result after =>
    rw [hrun] at hgrows hresult
    cases result with
    | error e => exact ⟨hgrows, hresult⟩
    | ok b =>
      obtain ⟨hgrowsNext, hnext⟩ := hf b after hresult
      exact ⟨hgrows.trans hgrowsNext, hnext⟩

/-- Nothing happens behind an error. -/
theorem triple_throw_bind {e : SchemaError} {f : β → Load α}
    (h : ∀ table, pre table → fault table) :
    Triple pre ((throw e : Load β) >>= f) post fault := by
  have hthrow : Triple pre (throw e : Load β) (fun _ _ => False) fault := triple_throw h
  exact triple_bind hthrow fun _ table hfalse => hfalse.elim

theorem triple_conseq {pre' : TypeTable → Prop} {post' : α → TypeTable → Prop}
    {fault' : TypeTable → Prop} {x : Load α} (hx : Triple pre' x post' fault')
    (hpre : ∀ table, pre table → pre' table)
    (hpost : ∀ a table, post' a table → post a table)
    (hfault : ∀ table, fault' table → fault table) : Triple pre x post fault := by
  intro table htable
  obtain ⟨hgrows, hresult⟩ := hx table (hpre table htable)
  refine ⟨hgrows, ?_⟩
  split at hresult
  · exact hpost _ _ hresult
  · exact hfault _ hresult

theorem triple_of_and {x : Load α} (p : TypeTable → Prop) (hx : Triple pre x post fault) :
    Triple (fun table => p table ∧ pre table) x post fault :=
  triple_conseq hx (fun _ h => h.2) (fun _ _ h => h) fun _ h => h

theorem triple_of_start {x : Load α}
    (hx : ∀ start, pre start → Triple (fun table => table = start) x post fault) :
    Triple pre x post fault :=
  fun table htable => hx table htable table rfl

/-- The run itself is known after a step from a known table. -/
theorem triple_run {x : Load α} (hx : Triple pre x post fault) {start : TypeTable}
    (hstart : pre start) :
    Triple (fun table => table = start) x
      (fun a table => x.run start = (.ok a, table) ∧ post a table) fault := by
  rintro table rfl
  obtain ⟨hgrows, hresult⟩ := hx table hstart
  refine ⟨hgrows, ?_⟩
  cases hrun : x.run table with
  | mk result after =>
    rw [hrun] at hresult
    cases result with
    | ok a => exact ⟨rfl, hresult⟩
    | error e => exact hresult

/-- What stays true while a table grows is still true after any step. -/
theorem triple_frame {x : Load α} {kept : TypeTable → Prop}
    (hkept : ∀ a b : TypeTable, a.Grows b → kept a → kept b) (hx : Triple pre x post fault) :
    Triple (fun table => pre table ∧ kept table) x
      (fun a table => post a table ∧ kept table) fault := by
  rintro table ⟨htable, hbefore⟩
  obtain ⟨hgrows, hresult⟩ := hx table htable
  refine ⟨hgrows, ?_⟩
  split at hresult
  · exact ⟨hresult, hkept table _ hgrows hbefore⟩
  · exact hresult

theorem triple_get : Triple pre get (fun read table => read = table ∧ pre table) fault := by
  intro table htable
  exact ⟨TypeTable.Grows.refl table, rfl, htable⟩

theorem run_get (table : TypeTable) : (get : Load TypeTable).run table = (.ok table, table) := rfl

theorem run_get_bind (f : TypeTable → Load α) (table : TypeTable) :
    (get >>= f).run table = (f table).run table := by
  rw [run_bind, run_get]

theorem run_insert (d : Definition) (table : TypeTable) :
    (insert d).run table =
      if h : table.Accepts d then (.ok table.size, (table.push d h).2)
      else (.error (.duplicateName d.name), table) := by
  unfold insert
  rw [run_get_bind, TypeTable.insert?]
  by_cases h : table.Accepts d
  · rw [dif_pos h, dif_pos h]
    rfl
  · rw [dif_neg h, dif_neg h]
    rfl

theorem triple_insert {d : Definition} {post : Nat → TypeTable → Prop}
    (hadded : ∀ table, pre table → ∀ h : table.Accepts d, post table.size (table.push d h).2)
    (hfault : ∀ table, pre table → fault table) : Triple pre (insert d) post fault := by
  intro table htable
  rw [run_insert]
  by_cases h : table.Accepts d
  · rw [dif_pos h]
    exact ⟨TypeTable.grows_push h, hadded table htable h⟩
  · rw [dif_neg h]
    exact ⟨TypeTable.Grows.refl table, hfault table htable⟩

theorem triple_ofLine {located : LineFault → SchemaError} {result : Except LineFault α}
    (hok : ∀ a, result = .ok a → ∀ table, pre table → post a table)
    (herror : ∀ table, pre table → fault table) :
    Triple pre (ofLine located result) post fault := by
  cases result with
  | ok a => exact triple_pure (hok a rfl)
  | error e => exact triple_throw herror

theorem ofLine_eq_ok {located : LineFault → SchemaError} {result : Except LineFault α} {a : α}
    {table after : TypeTable} (h : (ofLine located result).run table = (.ok a, after)) :
    result = .ok a ∧ table = after := by
  cases result with
  | ok b =>
    cases h
    exact ⟨rfl, rfl⟩
  | error fault => cases h

/-- The resolver keeps the invariant and leads to definitions that may be embedded. -/
def Resolves (inv : TypeTable → Prop) (resolve : Resolver) : Prop :=
  ∀ located written, Triple inv (resolve located written)
    (fun id table => inv table ∧ ∃ d, table.definitions[id]? = some d ∧ d.isService = false) inv

theorem triple_checkReference (inv : TypeTable → Prop) (located : LineFault → SchemaError)
    (text : String) (reference : Reference) (id : Nat) :
    Triple inv (checkReference located text reference id)
      (fun id table => inv table ∧ ∃ d, table.definitions[id]? = some d ∧ d.isService = false)
      inv := by
  unfold checkReference
  refine triple_bind triple_get fun read => ?_
  split
  · exact triple_throw fun table h => h.2
  · next d hd =>
    dsimp only
    have hembed : Triple (fun table => read = table ∧ inv table)
        (if d.isService = true then
          (throw (located (.embeddedService reference.fullName)) : Load Unit) >>= fun _ => pure id
        else pure id)
        (fun id table => inv table ∧ ∃ d, table.definitions[id]? = some d ∧ d.isService = false)
        inv := by
      split
      · exact triple_throw_bind fun table h => h.2
      · next hservice =>
        refine triple_pure ?_
        rintro table ⟨rfl, hinv⟩
        exact ⟨hinv, d, hd, by simpa using hservice⟩
    split
    · split
      · exact triple_throw_bind fun table h => h.2
      · exact hembed
    · exact hembed

/-- A fixed condition is used before a step. -/
theorem triple_of_pure {x : Load α} {p : Prop} (hx : p → Triple pre x post fault) :
    Triple (fun table => p ∧ pre table) x post fault :=
  fun table h => hx h.1 table h.2

theorem readSource_eq_ok {tree : FileTree} {source : SourceFile} {text : String}
    {table after : TypeTable} (h : (readSource tree source).run table = (.ok text, after)) :
    tree.read? source.path = .ok text ∧ table = after := by
  unfold readSource at h
  split at h
  · next hread =>
    cases h
    exact ⟨hread, rfl⟩
  · cases h

theorem triple_readSource (inv : TypeTable → Prop) (tree : FileTree) (source : SourceFile) :
    Triple inv (readSource tree source)
      (fun text table => tree.read? source.path = .ok text ∧ inv table) inv := by
  unfold readSource
  split
  · next hread => exact triple_pure fun table h => ⟨hread, h⟩
  · exact triple_throw fun table h => h

/-- How references of a file are resolved while the names of a chain are being read. -/
def resolver (tree : FileTree) (root : Path) (chain : List String) (source : SourceFile) :
    Resolver :=
  resolverWith tree root chain (Reader.behind (loadDefinition tree root) tree root chain) source

section Resolver

variable {tree : FileTree} {root : Path} {chain : List String} {source : SourceFile}
  {located : LineFault → SchemaError} {written : String}

theorem resolver_of_read?_eq_none (h : Reference.read? source.nameSpace written = none) :
    resolver tree root chain source located written =
      throw (located (.referenceVersion written)) := by
  unfold resolver resolverWith
  rw [h]

variable {reference : Reference} (hread : Reference.read? source.nameSpace written = some reference)

include hread

theorem resolver_of_locate_eq_error {e : SchemaError}
    (h : reference.locate tree root written located = .error e) :
    resolver tree root chain source located written = throw e := by
  unfold resolver resolverWith
  rw [hread]
  dsimp only
  split
  · next hlocate =>
    cases hlocate.symm.trans h
    rfl
  · next hlocate => cases hlocate.symm.trans h

/-- A reference whose file is known is followed to it. -/
theorem resolver_of_locate_eq_ok {target : SourceFile}
    (h : reference.locate tree root written located = .ok target) :
    resolver tree root chain source located written =
      follow tree root chain (Reader.behind (loadDefinition tree root) tree root chain) located
        written reference target (Reference.locate_mem_sources h) := by
  unfold resolver resolverWith
  rw [hread]
  dsimp only
  split
  · next hlocate => cases hlocate.symm.trans h
  · next hlocate =>
    cases hlocate.symm.trans h
    rfl

end Resolver

theorem loadDefinition_eq (tree : FileTree) (root : Path) (chain : List String)
    (source : SourceFile) (text : String) :
    loadDefinition tree root chain source text =
      elaborateText (resolver tree root chain source) source text >>= insert := by
  rw [loadDefinition]
  rfl

theorem elaborateText_eq_ok {resolve : Resolver} {source : SourceFile} {text : String}
    {table after : TypeTable} {d : Definition}
    (h : (elaborateText resolve source text).run table = (.ok d, after)) :
    ∃ draft, (elaborateLines resolve source.path.text 1 (Text.lines text.toList) {}).run table =
        (.ok draft, after) ∧
      d = draft.finish source.name source.header := by
  obtain ⟨draft, middle, hlines, hlast⟩ := run_bind_eq_ok h
  cases hlast
  exact ⟨draft, hlines, rfl⟩

/-- A definition that was read is the last one of the table. -/
theorem loadDefinition_eq_ok {tree : FileTree} {root : Path} {chain : List String}
    {source : SourceFile} {text : String} {table after : TypeTable} {id : Nat}
    (h : (loadDefinition tree root chain source text).run table = (.ok id, after)) :
    ∃ d middle, (elaborateText (resolver tree root chain source) source text).run table =
        (.ok d, middle) ∧ d.name = source.name ∧ id = middle.size ∧
      ∃ haccepts : middle.Accepts d, after = (middle.push d haccepts).2 := by
  rw [loadDefinition_eq] at h
  obtain ⟨d, middle, htext, hinsert⟩ := run_bind_eq_ok h
  rw [run_insert] at hinsert
  split at hinsert
  · next haccepts =>
    cases hinsert
    obtain ⟨draft, -, rfl⟩ := elaborateText_eq_ok htext
    exact ⟨_, middle, htext, rfl, rfl, haccepts, rfl⟩
  · cases hinsert

/-- A file of the tree that some reference leads to. -/
def Located (tree : FileTree) (root : Path) (target : SourceFile) : Prop :=
  ∃ nameSpace written reference located, Reference.read? nameSpace written = some reference ∧
    reference.locate tree root written located = .ok target

theorem Located.mem_sources {tree : FileTree} {root : Path} {target : SourceFile}
    (h : Located tree root target) : target ∈ tree.sources root := by
  obtain ⟨nameSpace, written, reference, located, -, hlocate⟩ := h
  exact Reference.locate_mem_sources hlocate

/-- References are resolved if every file that one leads to can be read under the invariant. -/
theorem resolves_resolver {tree : FileTree} {root : Path} {chain : List String}
    {source : SourceFile} {inv : TypeTable → Prop}
    (hload : ∀ target targetText, Located tree root target →
      tree.read? target.path = .ok targetText → target.name ∉ chain →
      Triple (fun table => inv table ∧ table.contains target.name = false)
        (loadDefinition tree root (chain ++ [target.name]) target targetText)
        (fun _ => inv) inv) :
    Resolves inv (resolver tree root chain source) := by
  intro located written
  cases hreference : Reference.read? source.nameSpace written with
  | none =>
    rw [resolver_of_read?_eq_none hreference]
    exact triple_throw fun table h => h
  | some reference =>
    cases hlocate : reference.locate tree root written located with
    | error e =>
      rw [resolver_of_locate_eq_error hreference hlocate]
      exact triple_throw fun table h => h
    | ok target =>
      rw [resolver_of_locate_eq_ok hreference hlocate, follow]
      refine triple_bind triple_get fun read => triple_of_and _ ?_
      split
      · next id _ => exact triple_checkReference _ located written reference id
      · split
        · exact triple_throw fun table h => h
        · next hchain =>
          have htarget : target.name ∉ chain := fun h => hchain (Or.inr h)
          refine triple_bind (triple_readSource inv tree target) fun targetText => ?_
          refine triple_of_pure fun hread => triple_bind triple_get fun read => ?_
          split
          · exact triple_throw_bind fun table h => h.2
          · next hfree =>
            have hlocated : Located tree root target :=
              ⟨_, written, reference, located, hreference, hlocate⟩
            have hnested := hload target targetText hlocated hread htarget
            refine triple_bind (triple_conseq hnested ?_ (fun _ _ h => h) fun _ h => h)
              fun id => triple_checkReference _ located written reference id
            rintro table ⟨rfl, h⟩
            exact ⟨h, by simpa using hfree⟩

/--
A condition on the chain of names that are being read and on the table, which holds all through the
reading of a definition.  A name that the table does not hold yet may be put on the chain and taken
off again, and the definition of the last name of the chain may be added to the table, which takes
its name off the chain.  What is read may be limited to some files with their texts, but all files
behind references are among them.
-/
structure ChainInvariant (tree : FileTree) (root : Path) (readable : SourceFile → String → Prop)
    (inv : List String → TypeTable → Prop) : Prop where
  located : ∀ target text, Located tree root target → tree.read? target.path = .ok text →
    readable target text
  opens : ∀ chain name table, name ∉ chain → table.contains name = false →
    inv chain table → inv (chain ++ [name]) table
  closes : ∀ chain name table, inv (chain ++ [name]) table → inv chain table
  reads : ∀ front source text, source.name ∉ front → readable source text →
    let chain := front ++ [source.name]
    Resolves (inv chain) (resolver tree root chain source) →
      Triple (inv chain) (elaborateText (resolver tree root chain source) source text)
        (fun d table => inv chain table ∧
          ∀ haccepts : table.Accepts d, inv front (table.push d haccepts).2)
        (inv chain)

section Chain

variable {tree : FileTree} {root : Path} {readable : SourceFile → String → Prop}
  {inv : List String → TypeTable → Prop} (hinv : ChainInvariant tree root readable inv)

include hinv

/-- A chain invariant holds after a definition was read with all that it refers to. -/
theorem triple_loadDefinition {front : List String} {source : SourceFile}
    (hnew : source.name ∉ front) (text : String) (hreadable : readable source text) :
    Triple (inv (front ++ [source.name]))
      (loadDefinition tree root (front ++ [source.name]) source text)
      (fun _ => inv front) (inv (front ++ [source.name])) := by
  -- Every step down the chain leaves fewer sources outside of it.
  induction hsources : sourcesOutside tree root (front ++ [source.name]) using Nat.strongRecOn
    generalizing front source text with
  | _ remaining ih =>
    subst hsources
    rw [loadDefinition_eq]
    refine triple_bind (hinv.reads front source text hnew hreadable (resolves_resolver ?_))
      fun d => ?_
    · intro target targetText hlocated hread htarget
      have hfewer := sourcesOutside_lt hlocated.mem_sources htarget
      have hreadable := hinv.located target targetText hlocated hread
      exact triple_conseq (ih _ hfewer htarget targetText hreadable rfl)
        (fun table h => hinv.opens _ _ table htarget h.2 h.1) (fun _ _ h => h)
        fun table h => hinv.closes _ _ table h
    · exact triple_insert (fun table h haccepts => h.2 haccepts) (fun table h => h.1)

/-- References are resolved under a chain invariant. -/
theorem resolves_resolver_of_chainInvariant (chain : List String) (source : SourceFile) :
    Resolves (inv chain) (resolver tree root chain source) := by
  refine resolves_resolver ?_
  intro target targetText hlocated hread htarget
  have hreadable := hinv.located target targetText hlocated hread
  exact triple_conseq (triple_loadDefinition hinv htarget targetText hreadable)
    (fun table h => hinv.opens _ _ table htarget h.2 h.1) (fun _ _ h => h)
    fun table h => hinv.closes _ _ table h

/-- A chain invariant holds after a file was read, whether it could be read or not. -/
theorem triple_loadNew {source : SourceFile} {text : String} (hreadable : readable source text) :
    Triple (inv []) (loadNew tree root source text) (fun _ => inv []) (inv []) := by
  unfold loadNew loadNewWith
  refine triple_bind triple_get fun read => ?_
  dsimp only
  split
  · exact triple_throw_bind fun table h => h.2
  · next hfree =>
    refine triple_conseq (triple_loadDefinition hinv List.not_mem_nil text hreadable) ?_
      (fun _ _ h => h) fun table h => hinv.closes [] _ table h
    rintro table ⟨rfl, h⟩
    exact hinv.opens [] _ read List.not_mem_nil (by simpa using hfree) h

theorem triple_loadSource {source : SourceFile}
    (hreadable : ∀ text, tree.read? source.path = .ok text → readable source text) :
    Triple (inv []) (loadSource tree root source) (fun _ => inv []) (inv []) := by
  have hload : Triple (inv [])
      (readSource tree source >>= fun text =>
        loadNew tree root source text >>= fun _ => (pure () : Load Unit))
      (fun _ => inv []) (inv []) :=
    triple_bind (triple_readSource _ tree source) fun text => triple_of_pure fun hread =>
      triple_bind (triple_loadNew hinv (hreadable text hread)) fun _ => triple_pure fun _ h => h
  unfold loadSource loadSourceWith
  refine triple_bind triple_get fun read => triple_of_and _ ?_
  split
  · exact triple_pure fun table h => h
  · exact hload

end Chain

/-- An invariant holds after a loop, and for each item what its turn has brought about. -/
theorem triple_forM {inv : TypeTable → Prop} {done : β → TypeTable → Prop} {f : β → Load Unit}
    {items : List β} (hdone : ∀ b (a c : TypeTable), a.Grows c → done b a → done b c)
    (hf : ∀ b ∈ items, Triple inv (f b) (fun _ table => inv table ∧ done b table) inv) :
    Triple inv (items.forM f) (fun _ table => inv table ∧ ∀ b ∈ items, done b table) inv := by
  induction items with
  | nil => exact triple_pure fun table h => ⟨h, fun b hb => (nomatch hb)⟩
  | cons b rest ih =>
    obtain ⟨hfirst, hrest⟩ := List.forall_mem_cons.mp hf
    refine triple_bind hfirst fun _ => ?_
    refine triple_conseq (triple_frame (hdone b) (ih hrest)) (fun _ h => h) ?_ fun _ h => h
    rintro _ table ⟨⟨hinv, hothers⟩, hb⟩
    exact ⟨hinv, List.forall_mem_cons.mpr ⟨hb, hothers⟩⟩

theorem triple_loadSelected {tree : FileTree} {root : Path}
    {readable : SourceFile → String → Prop} {inv : List String → TypeTable → Prop}
    (hinv : ChainInvariant tree root readable inv)
    (hreadable : ∀ sources, selectSources tree root = .ok sources → ∀ source ∈ sources, ∀ text,
      tree.read? source.path = .ok text → readable source text) :
    Triple (inv []) (loadSelected tree root) (fun _ => inv []) (inv []) := by
  unfold loadSelected loadSelectedWith
  split
  · exact triple_throw fun table h => h
  · next sources hsources =>
    have hturn : ∀ source ∈ sources, Triple (inv []) (loadSource tree root source)
        (fun _ table => inv [] table ∧ True) (inv []) := fun source hsource =>
      triple_conseq (triple_loadSource hinv (hreadable sources hsources source hsource))
        (fun _ h => h) (fun _ _ h => ⟨h, trivial⟩) fun _ h => h
    exact triple_conseq (triple_forM (fun _ _ _ _ h => h) hturn) (fun _ h => h)
      (fun _ _ h => h.1) fun _ h => h

end Load

end BusSchema
