import BusSchema.Proofs.Files.Addition
import BusSchema.Proofs.Layout.Lookup
import BusSchema.Proofs.Schema.Parallel

/-!
# Adding a file keeps the layouts

A file that is added to a tree may change the order in which definitions are read, and so their
positions in the type table.  In a plain tree (`FileTree.Plain`) every definition is still read from
the same file, and comes out alike but for the positions (`Load.alike_of_put`), so that it has the
same channels.  The catalogue of the larger tree therefore keeps all layouts
(`Catalogue.keptIn_of_put`).
-/

namespace BusSchema

/-! ## Plain trees -/

/-- The component is a name without points. -/
def PathComponent.isPlain : PathComponent → Bool
  | name text => text ≠ "" && !text.toList.contains '.'
  | _ => false

/-- The directories below the root that lead down to a file. -/
def SourceFile.directories (root : Path) (s : SourceFile) : List PathComponent :=
  ((s.path.relativeTo? root.components).getD []).dropLast

/--
The schema files lie in directories without points in their names, and no two of them say that they
hold the same version of a definition.
-/
structure FileTree.Plain (tree : FileTree) (root : Path) : Prop where
  directories : ∀ s ∈ tree.sources root, ∀ c ∈ s.directories root, c.isPlain = true
  versions : ∀ s ∈ tree.sources root, ∀ other ∈ tree.sources root, other.name = s.name →
    other.header.version = s.header.version → other = s

theorem PathComponent.exists_names {components : List PathComponent}
    (h : ∀ c ∈ components, c.isPlain = true) :
    ∃ segments : List String, components = segments.map .name ∧ "" ∉ segments ∧
      ∀ s ∈ segments, '.' ∉ s.toList := by
  induction components with
  | nil => exact ⟨[], rfl, List.not_mem_nil, fun _ hs => (nomatch hs)⟩
  | cons c rest ih =>
    obtain ⟨hc, hrest⟩ := List.forall_mem_cons.mp h
    obtain ⟨segments, rfl, hempty, hpoints⟩ := ih hrest
    cases c with
    | root => cases hc
    | current => cases hc
    | parent => cases hc
    | name text =>
      simp only [isPlain, Bool.and_eq_true, decide_eq_true_eq, Bool.not_eq_true',
        List.contains_eq_mem, decide_eq_false_iff_not] at hc
      refine ⟨text :: segments, rfl, ?_, List.forall_mem_cons.mpr ⟨hc.2, hpoints⟩⟩
      rw [List.mem_cons, not_or]
      exact ⟨Ne.symm hc.1, hempty⟩

variable {tree : FileTree} {root path : Path} {content : Except String String}

section Plain

variable (hplain : tree.Plain root) {sources : List SourceFile}
  (hsources : collect tree root = .ok sources) {s other : SourceFile}

include hplain hsources

/-- The directories of a file in a plain tree are the segments before the last one of its name. -/
theorem FileTree.Plain.split_name (hs : s ∈ sources) :
    ∃ segments : List String,
      s.path.parent? = some (root.components ++ segments.map .name) ∧
      Text.split '.' s.name = segments ++ [s.header.name] ∧ "" ∉ segments := by
  obtain ⟨hfile, hschema, hne, hof⟩ := (mem_collect_iff hsources).mp hs
  obtain ⟨-, below, hbelow, hnameSpace⟩ := SourceFile.ofPath_eq_ok hof
  have hdirectories : s.directories root = below.dropLast := by
    rw [SourceFile.directories, Path.relativeTo?, dropBeginning?_eq_some_iff.mpr hbelow]
    rfl
  have hnames := hplain.directories s (FileTree.mem_sources_iff.mpr ⟨hfile, hof⟩)
  rw [hdirectories] at hnames
  obtain ⟨segments, hsegments, hempty, hpoints⟩ := PathComponent.exists_names hnames
  rw [hsegments, Path.names_map_name] at hnameSpace
  refine ⟨segments, ?_, ?_, hempty⟩
  · rcases List.eq_nil_or_concat below with rfl | ⟨front, last, rfl⟩
    · exact absurd (by simpa using hbelow) hne
    rw [List.concat_eq_append] at hbelow hsegments
    rw [List.dropLast_concat] at hsegments
    rw [Path.parent?_eq_some_iff (SourceFile.fileName?_isSome_of_isSchemaFile hschema)]
    exact ⟨last, by rw [hbelow, hsegments, List.append_assoc]⟩
  · have hlast := (SourceFile.header_name_of_ofPath hof).2
    rw [SourceFile.name, hnameSpace, split_qualify]
    · split
      · next hjoin =>
        rcases eq_nil_or_singleton_of_join_eq_empty hpoints hjoin with rfl | rfl
        · rfl
        · exact absurd (List.mem_singleton_self "") hempty
      · rfl
    · intro segment hsegment
      rcases List.mem_append.mp hsegment with hsegment | hsegment
      · exact hpoints segment hsegment
      · rwa [List.mem_singleton.mp hsegment]

/-- In a plain tree the files of one name lie in one directory. -/
theorem FileTree.Plain.parent_eq (hs : s ∈ sources) (hother : other ∈ sources)
    (hname : other.name = s.name) : other.path.parent? = s.path.parent? := by
  obtain ⟨segments, hparent, hsplit, -⟩ := hplain.split_name hsources hs
  obtain ⟨others, hotherParent, hotherSplit, -⟩ := hplain.split_name hsources hother
  rw [hname, hsplit] at hotherSplit
  rw [hparent, hotherParent, (List.append_inj' hotherSplit rfl).1]

/-- In a plain tree no file has a name with empty segments. -/
theorem FileTree.Plain.regular (hs : s ∈ sources) : Regular s.name := by
  obtain ⟨segments, -, hsplit, hempty⟩ := hplain.split_name hsources hs
  have hlast := (SourceFile.header_name_of_ofPath ((mem_collect_iff hsources).mp hs).2.2.2).1
  rw [Regular, hsplit, List.mem_append, not_or, List.mem_singleton]
  exact ⟨hempty, hlast.symm⟩

end Plain

/-! ## Definitions of both trees -/

namespace Load

/-- An origin has no lower version than another file of its name in its directory. -/
theorem Origin.le {sources : List SourceFile} (hsources : collect tree root = .ok sources)
    {s other : SourceFile} (h : Origin tree root s) (hother : other ∈ sources)
    (hname : other.name = s.name) (hparent : other.path.parent? = s.path.parent?) :
    other.header.version.le s.header.version = true := by
  rcases h.selected_or_located hsources with hselected | hlocated
  · exact hselected.le hother hname
  · exact le_of_located hsources hlocated hother hname hparent

/-- Definitions of two tables have the same name. -/
def SameName (a b : TypeTable) (i j : Nat) : Prop :=
  ∃ d e, a.definitions[i]? = some d ∧ b.definitions[j]? = some e ∧ e.name = d.name

/-- The fields of two sections have the same channels, each over its table. -/
def SameChannels (old new : TypeTable) (a b : Section) : Prop :=
  flattenFields new.templates b.fields = flattenFields old.templates a.fields

theorem SameName.of_before {old new : TypeTable} {i i' k k' : Nat}
    (h : SameName (old.before i) (new.before i') k k') : k < i ∧ SameName old new k k' := by
  obtain ⟨d, e, hd, he, hname⟩ := h
  obtain ⟨hlt, hd⟩ := TypeTable.getElem?_before hd
  exact ⟨hlt, d, e, hd, (TypeTable.getElem?_before he).2, hname⟩

/-- The walk meets the same files after one is added. -/
theorem mem_collect_put {sources later : List SourceFile}
    (hsources : collect tree root = .ok sources)
    (hlater : collect (tree.put path content) root = .ok later) {s : SourceFile}
    (hs : s ∈ sources) : s ∈ later := by
  obtain ⟨hfile, hrest⟩ := (mem_collect_iff hsources).mp hs
  exact (mem_collect_iff hlater).mpr ⟨FileTree.mem_paths_put hfile, hrest⟩

section Put

variable (hplain : tree.Plain root)
  (hnew : ∀ added, SourceFile.ofPath root path = .ok added →
    ∀ s ∈ tree.sources root, s.name ≠ added.name)

include hnew

/-- The added path is none of the paths of the files below the root. -/
theorem components_ne_of_mem {s : SourceFile} (hs : s ∈ tree.sources root) :
    path.components ≠ s.path.components := by
  intro hsame
  have hof := (FileTree.mem_sources_iff.mp hs).2
  exact hnew _ (SourceFile.ofPath_congr hsame.symm hof) s hs rfl

include hplain

/-- A definition is read from the same file before and after the file is added. -/
theorem origin_eq_of_put {sources later : List SourceFile}
    (hsources : collect tree root = .ok sources)
    (hlater : collect (tree.put path content) root = .ok later) {s s' : SourceFile}
    (hs : Origin tree root s) (hs' : Origin (tree.put path content) root s')
    (hname : s'.name = s.name) : s' = s := by
  have hmem := hs.mem hsources
  obtain ⟨hfile, -, -, hof⟩ := (mem_collect_iff hsources).mp hmem
  obtain ⟨hfile', hschema', hne', hof'⟩ := (mem_collect_iff hlater).mp (hs'.mem hlater)
  have hsource : s ∈ tree.sources root := FileTree.mem_sources_iff.mpr ⟨hfile, hof⟩
  have hsource' : s' ∈ tree.sources root := by
    rcases FileTree.mem_sources_of_put (FileTree.mem_sources_iff.mpr ⟨hfile', hof'⟩) with
      hold | hadded
    · exact hold
    · exact absurd hname.symm (hnew s' hadded s hsource)
  have hold : s' ∈ sources := (mem_collect_iff hsources).mpr
    ⟨(FileTree.mem_sources_iff.mp hsource').1, hschema', hne', hof'⟩
  have hkept := mem_collect_put hsources hlater hmem
  have hparent := hplain.parent_eq hsources hmem hold hname
  have hversion : s'.header.version = s.header.version :=
    Version.le_antisymm (hs.le hsources hold hname hparent)
      (hs'.le hlater hkept hname.symm hparent.symm)
  exact hplain.versions s hsource s' hsource' hname hversion

/--
A reference in a file of the smaller tree is found over both tables, as a definition of the same
name.
-/
theorem matches_lookup_of_put {sources : List SourceFile}
    (hsources : collect tree root = .ok sources) {s : SourceFile} (hs : s ∈ sources) {index : Nat}
    {written : String} (hwritten : s.Writes tree index written) {old new : TypeTable} {k' : Nat}
    (hlook : (lookup (tree.put path content) root s (.line s.path.text (index + 1)) written).run
      new = (.ok k', new)) :
    Matches (SameName old new) old new (lookup tree root s (.line s.path.text (index + 1)) written)
      (lookup (tree.put path content) root s (.line s.path.text (index + 1)) written) := by
  intro k after hk
  have hafter := keeps_lookup tree root s (.line s.path.text (index + 1)) written old
  rw [hk] at hafter
  refine ⟨hafter, k', hlook, ?_⟩
  obtain ⟨hfile, -, -, hof⟩ := (mem_collect_iff hsources).mp hs
  obtain ⟨reference, target, d, hread, hlocate, -, hd, hname, -⟩ := lookup_eq_ok hk
  obtain ⟨reference', target', e, hread', hlocate', -, he, hname', -⟩ := lookup_eq_ok hlook
  obtain rfl := Option.some.inj (hread'.symm.trans hread)
  have hrefers : s.RefersAt tree root index reference' target :=
    ⟨FileTree.mem_sources_iff.mpr ⟨hfile, hof⟩, written, hwritten, hread, hlocate⟩
  have hkept : reference'.locate (tree.put path content) root written
      (.line s.path.text (index + 1)) = .ok target := Reference.locate_put hlocate
    fun added hadded hsame => hnew added hadded target hrefers.located.mem_sources hsame.symm
  obtain rfl := Except.ok.inj (hlocate'.symm.trans hkept)
  -- Without empty segments the two names of a reference are the same.
  have htarget := hrefers.name_eq (hrefers.regular_fullName (hplain.regular hsources hs))
  rw [htarget, or_self] at hname hname'
  exact ⟨d, e, hd, he, hname'.trans hname.symm⟩

/--
Definitions of the same name are alike, as they are read from the same text, if those of the same
names before them are equally long.
-/
theorem alike_of_spans_eq {old new : TypeTable} (hold : TypeTable.ofTree tree root = .ok old)
    (hlarger : TypeTable.ofTree (tree.put path content) root = .ok new) {i i' : Nat}
    {d d' : Definition} (hd : old.definitions[i]? = some d) (hd' : new.definitions[i']? = some d')
    (hname : d'.name = d.name)
    (hspans : ∀ k k', SameName (old.before i) (new.before i') k k' →
      spanAt new.spans k' = spanAt old.spans k) :
    d.Alike (SameName (old.before i) (new.before i')) d' := by
  obtain ⟨sources, hsources, hsourced, -⟩ := sourced_of_ofTree hold
  obtain ⟨later, hlater, hsourced', -⟩ := sourced_of_ofTree hlarger
  obtain ⟨s, hs, hsName, text, htext, hrun⟩ := hsourced i d hd
  obtain ⟨s', hs', hsName', text', htext', hrun'⟩ := hsourced' i' d' hd'
  obtain rfl := origin_eq_of_put hplain hnew hsources hlater hs hs'
    (hsName'.trans (hname.trans hsName.symm))
  have hmem := hs.mem hsources
  obtain ⟨hfile, -, -, hof⟩ := (mem_collect_iff hsources).mp hmem
  have hsource : s' ∈ tree.sources root := FileTree.mem_sources_iff.mpr ⟨hfile, hof⟩
  rw [FileTree.read?_put (components_ne_of_mem hnew hsource)] at htext'
  obtain rfl := Except.ok.inj (htext'.symm.trans htext)
  have hbefore : ∀ k k', SameName (old.before i) (new.before i') k k' →
      spanAt (new.before i').spans k' = spanAt (old.before i).spans k := by
    rintro k k' hsame
    have hspan := hspans k k' hsame
    obtain ⟨e, e', he, he', -⟩ := hsame
    rwa [(TypeTable.grows_before new i').spanAt (List.getElem?_eq_some_iff.mp he').1,
      (TypeTable.grows_before old i).spanAt (List.getElem?_eq_some_iff.mp he).1] at hspan
  have hread : Matches (Definition.Alike (SameName (old.before i) (new.before i')))
      (old.before i) (new.before i') (elaborateText (lookup tree root s') s' text')
      (elaborateText (lookup (tree.put path content) root s') s' text') := by
    refine matches_elaborateText hbefore fun index line hline written hwritten => ?_
    obtain ⟨k', hlook⟩ := resolved_of_elaborateText (keeps_lookup (tree.put path content) root s')
      hrun' index line hline written hwritten
    exact matches_lookup_of_put hplain hnew hsources hmem ⟨text', line, htext, hline, hwritten⟩
      hlook
  obtain ⟨-, result, hresult, halike⟩ := hread d _ hrun
  rw [hrun'] at hresult
  obtain rfl := Except.ok.inj (Prod.mk.inj hresult).1
  exact halike

/--
Definitions of the same name are alike, but for positions of definitions that have the same name
again, and they have the same span and template.
-/
theorem alike_of_put {old new : TypeTable} (hold : TypeTable.ofTree tree root = .ok old)
    (hlarger : TypeTable.ofTree (tree.put path content) root = .ok new) {i i' : Nat}
    {d d' : Definition} (hd : old.definitions[i]? = some d) (hd' : new.definitions[i']? = some d')
    (hname : d'.name = d.name) :
    d.Alike (SameName old new) d' ∧ spanAt new.spans i' = spanAt old.spans i ∧
      new.templates[i']? = old.templates[i]? := by
  -- What a definition refers to stands before it.
  induction i using Nat.strongRecOn generalizing i' d d' with
  | _ i ih =>
  have hearlier : ∀ k k', SameName (old.before i) (new.before i') k k' →
      spanAt new.spans k' = spanAt old.spans k ∧ new.templates[k']? = old.templates[k]? := by
    intro k k' hsame
    obtain ⟨hlt, e, e', he, he', hsame⟩ := hsame.of_before
    exact (ih k hlt he he' hsame).2
  have halike := alike_of_spans_eq hplain hnew hold hlarger hd hd' hname
    fun k k' hsame => (hearlier k k' hsame).1
  refine ⟨halike.mono fun k k' hsame => hsame.of_before.2, ?_, ?_⟩
  · rw [old.spanAt_eq hd, new.spanAt_eq hd',
      halike.measure_eq fun k k' hsame => (hearlier k k' hsame).1]
  · have hchannels : new.flatten d'.request.fields = old.flatten d.request.fields :=
      halike.request.flattenFields_eq fun k k' hsame => (hearlier k k' hsame).2
    rw [old.template hd, new.template hd', hchannels]

/-- A definition is still there after the file is added, with the same channels. -/
theorem exists_of_put {old new : TypeTable} (hold : TypeTable.ofTree tree root = .ok old)
    (hlarger : TypeTable.ofTree (tree.put path content) root = .ok new) {d : Definition}
    (hd : d ∈ old.definitions) :
    ∃ e ∈ new.definitions, e.name = d.name ∧ e.subjectId = d.subjectId ∧
      SameChannels old new d.request e.request ∧
      Option.Rel (SameChannels old new) d.response e.response := by
  obtain ⟨sources, hsources, hsourced, -⟩ := sourced_of_ofTree hold
  obtain ⟨later, hlater, -, hnames⟩ := sourced_of_ofTree hlarger
  obtain ⟨i, hi⟩ := List.mem_iff_getElem?.mp hd
  obtain ⟨s, horigin, hname, -⟩ := hsourced i d hi
  -- The file that the definition is read from is met again.
  have hcontains : new.contains d.name = true :=
    hname ▸ hnames s (mem_collect_put hsources hlater (horigin.mem hsources))
  obtain ⟨e, he, hsame⟩ := TypeTable.contains_iff.mp hcontains
  obtain ⟨j, hj⟩ := List.mem_iff_getElem?.mp he
  have halike := (alike_of_put hplain hnew hold hlarger hi hj hsame).1
  have htemplates : ∀ k k', SameName old new k k' →
      new.templates[k']? = old.templates[k]? := by
    rintro k k' ⟨f, f', hf, hf', hsame⟩
    exact (alike_of_put hplain hnew hold hlarger hf hf' hsame).2.2
  exact ⟨e, he, hsame, halike.subjectId, halike.request.flattenFields_eq htemplates,
    rel_option_imp (fun _ _ h => h.flattenFields_eq htemplates) halike.response⟩

end Put

end Load

/-! ## Catalogues -/

namespace Catalogue

/-- All layouts of one catalogue are in another one, and their ids and names find them there. -/
structure KeptIn (before after : Catalogue) : Prop where
  messages : before.messages ⊆ after.messages
  services : before.services ⊆ after.services
  message? : ∀ id m, before.message? id = some m → after.message? id = some m
  service? : ∀ id s, before.service? id = some s → after.service? id = some s
  messageNamed? : ∀ name m, before.messageNamed? name = some m →
    after.messageNamed? name = some m
  serviceNamed? : ∀ name s, before.serviceNamed? name = some s →
    after.serviceNamed? name = some s

/-- It is enough that the layouts are kept, as ids and names find what they belong to. -/
theorem keptIn_of_subset {old new : TypeTable} {before after : Catalogue}
    (hbefore : ofTable old = .ok before) (hafter : ofTable new = .ok after)
    (hmessages : before.messages ⊆ after.messages)
    (hservices : before.services ⊆ after.services) :
    before.KeptIn after where
  messages := hmessages
  services := hservices
  message? id m h := by
    rw [(ordered_of_ofTable hbefore).message?_eq_some_iff] at h
    exact (ordered_of_ofTable hafter).message?_eq_some_iff.mpr (h.imp_left (hmessages ·))
  service? id s h := by
    rw [(ordered_of_ofTable hbefore).service?_eq_some_iff] at h
    exact (ordered_of_ofTable hafter).service?_eq_some_iff.mpr (h.imp_left (hservices ·))
  messageNamed? name m h := by
    rw [messageNamed?_eq_some_iff hbefore] at h
    exact (messageNamed?_eq_some_iff hafter).mpr (h.imp_left (hmessages ·))
  serviceNamed? name s h := by
    rw [serviceNamed?_eq_some_iff hbefore] at h
    exact (serviceNamed?_eq_some_iff hafter).mpr (h.imp_left (hservices ·))

/--
A file with a new name is added to a plain tree.  If both trees have a catalogue, then all layouts
of the first one, with their subject ids, names and channels, are in the second one, where their ids
and their names find them.
-/
theorem keptIn_of_put {tree : FileTree} {root path : Path} {content : Except String String}
    (hplain : tree.Plain root)
    (hnew : ∀ added, SourceFile.ofPath root path = .ok added →
      ∀ s ∈ tree.sources root, s.name ≠ added.name)
    {old new : TypeTable} (hold : TypeTable.ofTree tree root = .ok old)
    (hlarger : TypeTable.ofTree (tree.put path content) root = .ok new) {before after : Catalogue}
    (hbefore : ofTable old = .ok before) (hafter : ofTable new = .ok after) :
    before.KeptIn after := by
  have hlaysOut := laysOut_of_ofTable hbefore
  have hcovers := covers_of_ofTable hafter
  refine keptIn_of_subset hbefore hafter ?_ ?_
  · intro m hm
    obtain ⟨d, hd, hroutable, hresponse, rfl⟩ := hlaysOut.messages m hm
    obtain ⟨e, he, hname, hsubject, hrequest, hsides⟩ :=
      Load.exists_of_put hplain hnew hold hlarger hd
    have hlayout : messageLayout new.templates e = messageLayout old.templates d := by
      rw [messageLayout, messageLayout, hsubject, hname, hrequest]
    rw [hresponse] at hsides
    rw [← hlayout]
    refine (hcovers e he).message ?_ (eq_none_of_rel hsides)
    rwa [Definition.isRoutable, hsubject]
  · intro s hs
    obtain ⟨d, hd, hroutable, response, hresponse, rfl⟩ := hlaysOut.services s hs
    obtain ⟨e, he, hname, hsubject, hrequest, hsides⟩ :=
      Load.exists_of_put hplain hnew hold hlarger hd
    rw [Option.mem_def.mp hresponse] at hsides
    obtain ⟨side, hside, hchannels⟩ := exists_of_rel_some hsides
    have hlayout : serviceLayout new.templates e side =
        serviceLayout old.templates d response := by
      rw [serviceLayout, serviceLayout, hsubject, hname, hrequest, hchannels]
    rw [← hlayout]
    refine (hcovers e he).service ?_ side hside
    rwa [Definition.isRoutable, hsubject]

/-- The added file is read first, and with it a definition that was read later before. -/
theorem keptIn_of_put_read_first :
    let root := Path.ofText "r"
    let tree := FileTree.ofTexts [("r/2.M.uavcan", "n.B b\nn.C c\n"),
      ("r/n/B.1.0.uavcan", "uint8 x\n"), ("r/n/B.2.0.uavcan", "uint16 x\n"),
      ("r/n/C.1.0.uavcan", "int8 y\n")]
    let path := Path.ofText "r/1.E.uavcan"
    let larger := tree.put path (.ok "n.C c\n")
    ∃ (old new : TypeTable) (before after : Catalogue),
      TypeTable.ofTree tree root = .ok old ∧ TypeTable.ofTree larger root = .ok new ∧
      old.definitions.map Definition.name = ["n.B", "n.C", "M"] ∧
      new.definitions.map Definition.name = ["n.C", "E", "n.B", "M"] ∧
      before.messages = [⟨2, "M", [Channel.scalar .unsigned 16 "M.b.x",
        Channel.scalar .signed 8 "M.c.y"]⟩] ∧
      before.KeptIn after := by
  intro root tree path larger
  let before : Catalogue := { messages := [⟨2, "M", [Channel.scalar .unsigned 16 "M.b.x",
    Channel.scalar .signed 8 "M.c.y"]⟩] }
  let after : Catalogue := { messages := [⟨1, "E", [Channel.scalar .signed 8 "E.c.y"]⟩,
    ⟨2, "M", [Channel.scalar .unsigned 16 "M.b.x", Channel.scalar .signed 8 "M.c.y"]⟩] }
  let observe := fun table : TypeTable => (table.definitions.map Definition.name, ofTable table)
  have hfirst : (TypeTable.ofTree tree root).map observe =
      .ok (["n.B", "n.C", "M"], .ok before) := by decide +kernel
  have hsecond : (TypeTable.ofTree larger root).map observe =
      .ok (["n.C", "E", "n.B", "M"], .ok after) := by decide +kernel
  obtain ⟨old, hold, hobserved⟩ := map_eq_ok_iff.mp hfirst
  obtain ⟨hnames, hbefore⟩ := Prod.mk.inj hobserved
  obtain ⟨new, hlarger, hobserved⟩ := map_eq_ok_iff.mp hsecond
  obtain ⟨hlaterNames, hafter⟩ := Prod.mk.inj hobserved
  have hplain : tree.Plain root := ⟨by decide +kernel, by decide +kernel⟩
  have hadded : SourceFile.ofPath root path = .ok ⟨path, ⟨"E", 1, {}⟩, ""⟩ := by
    decide +kernel
  have hnew : ∀ added, SourceFile.ofPath root path = .ok added →
      ∀ s ∈ tree.sources root, s.name ≠ added.name := by
    intro added h
    rw [hadded] at h
    cases h
    decide +kernel
  exact ⟨old, new, before, after, hold, hlarger, hnames, hlaterNames, rfl,
    keptIn_of_put hplain hnew hold hlarger hbefore hafter⟩

end Catalogue

end BusSchema
