import BusSchema.Proofs.Files.Addition
import BusSchema.Proofs.Files.Order
import BusSchema.Proofs.Schema.Edits

/-!
# Comments, blank lines and blanks around lines

Two computations mirror each other if they leave the same table, with the same result or with
errors that are related (`Load.Mirrors`).  Reading a text mirrors reading an edit of it: faults of
the text itself are found under the numbers that its lines have in the edit, and all other errors
are the same (`Load.mirrors_loadText`).  No other file that is read on the way is written as the
file of the text, since the name of its definition is being read already.
-/

namespace BusSchema

namespace Load

variable {α β : Type} {R : SchemaError → SchemaError → Prop}

/-! ## Computations that mirror each other -/

/--
From every table both computations come to the same table, with the same result or with an error of
the first that is related to an error of the second.
-/
def Mirrors (R : SchemaError → SchemaError → Prop) (x y : Load α) : Prop :=
  ∀ table, (∃ a after, x.run table = (.ok a, after) ∧ y.run table = (.ok a, after)) ∨
    ∃ e e' after, x.run table = (.error e, after) ∧ y.run table = (.error e', after) ∧ R e e'

theorem mirrors_pure (a : α) : Mirrors R (pure a) (pure a) :=
  fun table => .inl ⟨a, table, rfl, rfl⟩

theorem mirrors_throw {e e' : SchemaError} (h : R e e') :
    Mirrors R (throw e : Load α) (throw e') :=
  fun table => .inr ⟨e, e', table, rfl, rfl, h⟩

theorem Mirrors.bind {x y : Load α} {f g : α → Load β} (h : Mirrors R x y)
    (hf : ∀ a, Mirrors R (f a) (g a)) : Mirrors R (x >>= f) (y >>= g) := by
  intro table
  rw [run_bind, run_bind]
  rcases h table with ⟨a, after, hx, hy⟩ | ⟨e, e', after, hx, hy, hrelated⟩
  · rw [hx, hy]
    exact hf a after
  · rw [hx, hy]
    exact .inr ⟨e, e', after, rfl, rfl, hrelated⟩

theorem mirrors_get_bind {f g : TypeTable → Load α} (h : ∀ table, Mirrors R (f table) (g table)) :
    Mirrors R (get >>= f) (get >>= g) := by
  intro table
  rw [run_get_bind, run_get_bind]
  exact h table table

/-- An error ends a computation, whatever would have followed. -/
theorem mirrors_throw_bind {e e' : SchemaError} (h : R e e') (f g : α → Load β) :
    Mirrors R ((throw e : Load α) >>= f) ((throw e' : Load α) >>= g) :=
  fun table => .inr ⟨e, e', table, rfl, rfl, h⟩

section Elaboration

variable {located located' : LineFault → SchemaError}
  (hlocated : ∀ fault, R (located fault) (located' fault))

include hlocated

theorem mirrors_ofLine (result : Except LineFault α) :
    Mirrors R (ofLine located result) (ofLine located' result) := by
  cases result with
  | ok a => exact mirrors_pure a
  | error fault => exact mirrors_throw (hlocated fault)

theorem mirrors_checkReference (text : String) (reference : Reference) (id : Nat) :
    Mirrors R (checkReference located text reference id)
      (checkReference located' text reference id) := by
  unfold checkReference
  refine mirrors_get_bind fun table => ?_
  split
  · exact mirrors_throw (hlocated _)
  · next d hd =>
    have hembedded : Mirrors R
        (if d.isService = true then
          (throw (located (.embeddedService reference.fullName)) : Load Unit) >>= fun _ => pure id
        else pure id)
        (if d.isService = true then
          (throw (located' (.embeddedService reference.fullName)) : Load Unit) >>= fun _ => pure id
        else pure id) := by
      split
      · exact mirrors_throw_bind (hlocated _) _ _
      · exact mirrors_pure id
    dsimp only
    split
    · split
      · exact mirrors_throw_bind (hlocated _) _ _
      · exact hembedded
    · exact hembedded

variable {resolve : Resolver}
  (hresolve : ∀ written, Mirrors R (resolve located written) (resolve located' written))

include hresolve

theorem mirrors_elaborateScalar (cast : CastMode) (expr : ScalarExpr) :
    Mirrors R (elaborateScalar resolve located cast expr)
      (elaborateScalar resolve located' cast expr) := by
  cases expr with
  | padding digits => exact mirrors_ofLine hlocated _
  | boolean => exact mirrors_pure _
  | numeric kind digits => exact mirrors_ofLine hlocated _
  | named reference => exact (hresolve reference).bind fun id => mirrors_pure _

theorem mirrors_elaborateType (cast : CastMode) (expr : TypeExpr) :
    Mirrors R (elaborateType resolve located cast expr)
      (elaborateType resolve located' cast expr) := by
  have hscalar := mirrors_elaborateScalar hlocated hresolve cast
  cases expr with
  | scalar type => exact hscalar type
  | array element bound =>
    refine (hscalar element).bind fun type => mirrors_get_bind fun table => ?_
    exact mirrors_ofLine hlocated _

theorem mirrors_elaborateStatement (draft : DefinitionDraft) (statement : Statement) :
    Mirrors R (elaborateStatement resolve located draft statement)
      (elaborateStatement resolve located' draft statement) := by
  cases statement with
  | separator => exact mirrors_ofLine hlocated _
  | directive name hasArgument => exact mirrors_ofLine hlocated _
  | member attr =>
    refine (mirrors_elaborateType hlocated hresolve attr.cast attr.type).bind fun type => ?_
    refine (mirrors_ofLine hlocated _).bind fun made => mirrors_get_bind fun table => ?_
    exact mirrors_ofLine hlocated _

/-- Lines that say the same thing are read alike. -/
theorem mirrors_elaborateLine (draft : DefinitionDraft) {line edited : List Char}
    (hline : stripComment edited = stripComment line) :
    Mirrors R (elaborateLine resolve located draft line)
      (elaborateLine resolve located' draft edited) := by
  unfold elaborateLine
  rw [hline]
  split
  · exact mirrors_pure draft
  · split
    · exact mirrors_throw (hlocated .malformed)
    · exact mirrors_elaborateStatement hlocated hresolve draft _

end Elaboration

theorem elaborateLine_of_silent {resolve : Resolver} {located : LineFault → SchemaError}
    {draft : DefinitionDraft} {line : List Char} (h : IsSilent line) :
    elaborateLine resolve located draft line = pure draft := by
  unfold elaborateLine
  rw [h.stripComment_eq]

/-- A resolver uses the location of a reference for its faults only. -/
def Relocates (R : SchemaError → SchemaError → Prop) (resolve : Resolver) : Prop :=
  ∀ located located', (∀ fault, R (located fault) (located' fault)) →
    ∀ written, Mirrors R (resolve located written) (resolve located' written)

/-- Lines are read as their edits are, with the faults of each line located in its edit. -/
theorem mirrors_elaborateLines {resolve : Resolver} (hresolve : Relocates R resolve)
    {path : String} {start first : Nat} {lines edited : List (List Char)} {numbers : List Nat}
    (hedited : Edited start lines edited numbers)
    (hlocated : ∀ index number, numbers[index]? = some number →
      ∀ fault, R (.line path (first + index) fault) (.line path number fault))
    (draft : DefinitionDraft) :
    Mirrors R (elaborateLines resolve path first lines draft)
      (elaborateLines resolve path start edited draft) := by
  induction hedited generalizing first draft with
  | nil start => exact mirrors_pure draft
  | line hline h ih =>
    have hhere := hlocated 0 _ rfl
    refine (mirrors_elaborateLine hhere (hresolve _ _ hhere) draft hline.stripComment_eq).bind ?_
    intro next
    refine ih (fun index number hnumber => ?_) next
    rw [Nat.add_right_comm, Nat.add_assoc]
    exact hlocated (index + 1) number hnumber
  | insert hsilent h ih =>
    have hskip := ih hlocated draft
    rw [elaborateLines, elaborateLine_of_silent hsilent, pure_bind]
    exact hskip

/-- A text is read as its edit is. -/
theorem mirrors_elaborateText {resolve : Resolver} (hresolve : Relocates R resolve)
    {source : SourceFile} {text edited : String} {numbers : List Nat}
    (hedited : Edited 1 (Text.lines text.toList) (Text.lines edited.toList) numbers)
    (hlocated : ∀ index number, numbers[index]? = some number → ∀ fault,
      R (.line source.path.text (index + 1) fault) (.line source.path.text number fault)) :
    Mirrors R (elaborateText resolve source text) (elaborateText resolve source edited) := by
  refine (mirrors_elaborateLines hresolve hedited (fun index number hnumber => ?_) {}).bind
    fun draft => mirrors_pure _
  rw [Nat.add_comm]
  exact hlocated index number hnumber

end Load

/-! ## Files behind references -/

namespace SchemaError

/-- The error is not about a line of the file that is written so. -/
def IsElsewhere (path : String) (e : SchemaError) : Prop :=
  ∀ number fault, e ≠ .line path number fault

theorem isElsewhere_duplicateName (path name : String) :
    (duplicateName name).IsElsewhere path := by
  intro number fault h
  cases h

theorem isElsewhere_unreadable (path file reason : String) :
    (unreadable file reason).IsElsewhere path := by
  intro number fault h
  cases h

/--
Errors about a line of a file have the number of that line in the second error where the first one
has its place among the lines; all other errors are the same.
-/
inductive Moved (path : String) (numbers : List Nat) : SchemaError → SchemaError → Prop
  | here {index number : Nat} (hnumber : numbers[index]? = some number) (fault : LineFault) :
    Moved path numbers (.line path (index + 1) fault) (.line path number fault)
  | elsewhere {e : SchemaError} (h : e.IsElsewhere path) : Moved path numbers e e

theorem Moved.eq_line {path : String} {numbers : List Nat} {index : Nat} {fault : LineFault}
    {e : SchemaError} (h : Moved path numbers (.line path (index + 1) fault) e) :
    ∃ number, numbers[index]? = some number ∧ e = .line path number fault := by
  cases h with
  | here hnumber fault => exact ⟨_, hnumber, rfl⟩
  | elsewhere h => exact absurd rfl (h _ _)

end SchemaError

/-- The error of a path is about no line. -/
theorem SourceFile.isElsewhere_of_ofPath {root path : Path} {e : SchemaError}
    (h : ofPath root path = .error e) (file : String) : e.IsElsewhere file := by
  unfold ofPath at h
  cases hdescribe : describe root path with
  | ok source =>
    rw [hdescribe] at h
    cases h
  | error fault =>
    rw [hdescribe] at h
    cases h
    intro number lineFault h
    cases h

/-- Where a reference leads to does not depend on its location, but for the location of a fault. -/
theorem Reference.locate_cases (tree : FileTree) (root : Path) (reference : Reference)
    (text : String) (located located' : LineFault → SchemaError) :
    (∃ target, reference.locate tree root text located = .ok target ∧
        reference.locate tree root text located' = .ok target) ∨
      (∃ fault, reference.locate tree root text located = .error (located fault) ∧
        reference.locate tree root text located' = .error (located' fault)) ∨
      ∃ path reason, reference.locate tree root text located = .error (.unreadable path reason) ∧
        reference.locate tree root text located' = .error (.unreadable path reason) := by
  unfold locate
  dsimp only
  split
  · split
    · exact .inr (.inr ⟨_, _, rfl, rfl⟩)
    · split
      · exact .inr (.inl ⟨_, rfl, rfl⟩)
      · exact .inl ⟨_, rfl, rfl⟩
  · exact .inr (.inl ⟨_, rfl, rfl⟩)

namespace Load

variable {R : SchemaError → SchemaError → Prop} {tree : FileTree} {root path : Path}

/-- Files whose names are not in a chain are read behind it with errors related to themselves. -/
def MirrorsOthers (R : SchemaError → SchemaError → Prop) (tree : FileTree) (root : Path)
    (chain : List String) : Prop :=
  ∀ target text, target ∈ tree.sources root → target.name ∉ chain →
    Mirrors R (loadDefinition tree root (chain ++ [target.name]) target text)
      (loadDefinition tree root (chain ++ [target.name]) target text)

section Nested

variable (helsewhere : ∀ e : SchemaError, e.IsElsewhere path.text → R e e)

include helsewhere

theorem mirrors_insert (d : Definition) : Mirrors R (insert d) (insert d) := by
  intro table
  rw [run_insert]
  split
  · exact .inl ⟨_, _, rfl, rfl⟩
  · exact .inr ⟨_, _, table, rfl, rfl, helsewhere _ (SchemaError.isElsewhere_duplicateName _ _)⟩

theorem mirrors_readSource (source : SourceFile) :
    Mirrors R (readSource tree source) (readSource tree source) := by
  unfold readSource
  split
  · exact mirrors_pure _
  · exact mirrors_throw (helsewhere _ (SchemaError.isElsewhere_unreadable _ _ _))

/-- A resolver relocates references if the files behind them are read with errors elsewhere. -/
theorem relocates_resolver {chain : List String} (hnested : MirrorsOthers R tree root chain)
    (source : SourceFile) :
    Relocates R (resolver tree root chain source) := by
  intro located located' hlocated written
  cases hreference : Reference.read? source.nameSpace written with
  | none =>
    rw [resolver_of_read?_eq_none hreference, resolver_of_read?_eq_none hreference]
    exact mirrors_throw (hlocated _)
  | some reference =>
  rcases reference.locate_cases tree root written located located' with
    ⟨target, hlocate, hlocate'⟩ | ⟨fault, hlocate, hlocate'⟩ | ⟨file, reason, hlocate, hlocate'⟩
  · rw [resolver_of_locate_eq_ok hreference hlocate, resolver_of_locate_eq_ok hreference hlocate']
    unfold follow
    refine mirrors_get_bind fun table => ?_
    split
    · exact mirrors_checkReference hlocated _ _ _
    · split
      · exact mirrors_throw (hlocated _)
      · next hchain =>
        have hmem := Reference.locate_mem_sources hlocate
        refine (mirrors_readSource helsewhere target).bind fun text => ?_
        refine mirrors_get_bind fun table => ?_
        split
        · exact mirrors_throw_bind (helsewhere _ (SchemaError.isElsewhere_duplicateName _ _)) _ _
        · refine (hnested target text hmem fun h => hchain (.inr h)).bind fun id => ?_
          exact mirrors_checkReference hlocated _ _ _
  · rw [resolver_of_locate_eq_error hreference hlocate,
      resolver_of_locate_eq_error hreference hlocate']
    exact mirrors_throw (hlocated fault)
  · rw [resolver_of_locate_eq_error hreference hlocate,
      resolver_of_locate_eq_error hreference hlocate']
    exact mirrors_throw (helsewhere _ (SchemaError.isElsewhere_unreadable _ _ _))

/-- A definition is read as it is read from an edit of its text. -/
theorem mirrors_loadDefinition_edited {chain : List String}
    (hnested : MirrorsOthers R tree root chain) {source : SourceFile} {text edited : String}
    {numbers : List Nat}
    (hedited : Edited 1 (Text.lines text.toList) (Text.lines edited.toList) numbers)
    (hlocated : ∀ index number, numbers[index]? = some number → ∀ fault,
      R (.line source.path.text (index + 1) fault) (.line source.path.text number fault)) :
    Mirrors R (loadDefinition tree root chain source text)
      (loadDefinition tree root chain source edited) := by
  have hresolve := relocates_resolver helsewhere hnested source
  rw [loadDefinition_eq, loadDefinition_eq]
  exact (mirrors_elaborateText hresolve hedited hlocated).bind fun d => mirrors_insert helsewhere d

end Nested

section Own

variable (hpath : ∀ f ∈ tree.files, f.path.text = path.text → f.path = path) {own : SourceFile}
  (hown : SourceFile.ofPath root path = .ok own)

include hpath hown

/-- A file of another name than the one at the path is written otherwise. -/
theorem path_ne_of_name_notMem {chain : List String} (hchain : own.name ∈ chain)
    {target : SourceFile} (hmem : target ∈ tree.sources root) (htarget : target.name ∉ chain) :
    target.path.text ≠ path.text := by
  intro htext
  obtain ⟨hfile, hof⟩ := FileTree.mem_sources_iff.mp hmem
  obtain ⟨f, hf, hsame⟩ := List.mem_map.mp hfile
  have htargetPath : target.path = path := by
    rw [← hsame] at htext ⊢
    exact hpath f hf htext
  rw [htargetPath, hown] at hof
  cases hof
  exact htarget hchain

/-- Files that are read behind a chain with the name of a file fail with errors elsewhere. -/
theorem mirrors_loadDefinition_self
    (helsewhere : ∀ e : SchemaError, e.IsElsewhere path.text → R e e) {chain : List String}
    (hchain : own.name ∈ chain) {source : SourceFile} (hsource : source.path.text ≠ path.text)
    (text : String) :
    Mirrors R (loadDefinition tree root chain source text)
      (loadDefinition tree root chain source text) := by
  -- Every step down the chain leaves fewer sources outside of it.
  induction hsources : sourcesOutside tree root chain using Nat.strongRecOn
    generalizing chain source text with
  | _ remaining ih =>
    subst hsources
    have hnested : MirrorsOthers R tree root chain := by
      intro target targetText hmem htarget
      have hother := path_ne_of_name_notMem hpath hown hchain hmem htarget
      have hfewer := sourcesOutside_lt hmem htarget
      exact ih _ hfewer (List.mem_append_left _ hchain) hother targetText rfl
    refine mirrors_loadDefinition_edited helsewhere hnested (Edited.refl 1 _) ?_
    intro index number hnumber fault
    obtain ⟨hindex, hplace⟩ := List.getElem?_eq_some_iff.mp hnumber
    have hsame : number = index + 1 := by
      rw [← hplace, List.getElem_range', Nat.one_mul, Nat.add_comm]
    rw [hsame]
    apply helsewhere
    intro other otherFault herror
    exact hsource (SchemaError.line.inj herror).1

end Own

/--
Reading a text as the content of a file, over any table, succeeds exactly if reading an edit of it
does, and then with the same definition at the same place of the same table.  Otherwise the errors
are the same but for faults of the file itself, which are about the same line under the number that
it has in the one text and in the other; the tables are the same then, too.  Paths that are written
alike are taken to be the same, as those of a tree of texts are (`path_of_mem_ofTexts`).
-/
theorem mirrors_loadText (hpath : ∀ f ∈ tree.files, f.path.text = path.text → f.path = path)
    {text edited : String} {numbers : List Nat}
    (hedited : Edited 1 (Text.lines text.toList) (Text.lines edited.toList) numbers) :
    Mirrors (SchemaError.Moved path.text numbers) (loadText tree root path text)
        (loadText tree root path edited) ∧
      ∀ index number : Nat, numbers[index]? = some number →
        ∃ line found, (Text.lines text.toList)[index]? = some line ∧
          (Text.lines edited.toList)[number - 1]? = some found ∧ LineEdited line found := by
  constructor
  · have helsewhere : ∀ e : SchemaError, e.IsElsewhere path.text →
        SchemaError.Moved path.text numbers e e := fun e h => .elsewhere h
    unfold loadText
    cases hown : SourceFile.ofPath root path with
    | error e => exact mirrors_throw (helsewhere e (SourceFile.isElsewhere_of_ofPath hown _))
    | ok own =>
      have hownPath : own.path = path := (SourceFile.ofPath_eq_ok hown).1
      have hmem : own.name ∈ [own.name] := List.mem_singleton_self own.name
      dsimp only
      unfold loadNew loadNewWith
      refine mirrors_get_bind fun table => ?_
      dsimp only
      split
      · exact mirrors_throw_bind (helsewhere _ (SchemaError.isElsewhere_duplicateName _ _)) _ _
      have hnested : MirrorsOthers (SchemaError.Moved path.text numbers) tree root [own.name] := by
        intro target targetText htarget hname
        have hother := path_ne_of_name_notMem hpath hown hmem htarget hname
        have hchain : own.name ∈ [own.name] ++ [target.name] := List.mem_append_left _ hmem
        exact mirrors_loadDefinition_self hpath hown helsewhere hchain hother targetText
      apply mirrors_loadDefinition_edited helsewhere hnested hedited
      intro index number hnumber fault
      rw [hownPath]
      exact .here hnumber fault
  · intro index number hnumber
    obtain ⟨line, found, hline, -, hfound, hlines⟩ := hedited.corresponds hnumber
    exact ⟨line, found, hline, hfound, hlines⟩

/-- In a tree of texts every path is the one that its text denotes. -/
theorem path_of_mem_ofTexts {texts : List (String × String)} {other : Path}
    (h : other ∈ (FileTree.ofTexts texts).files.map StoredFile.path) :
    other = Path.ofText other.text := by
  induction texts using List.reverseRecOn with
  | nil => cases h
  | append_singleton texts entry ih =>
    rw [FileTree.ofTexts_concat] at h
    rcases FileTree.mem_paths_of_put h with hold | rfl
    · exact ih hold
    · rfl

/-- A fault in the second line of a text is one in the fourth line of its edit. -/
theorem loadText_edited_repeated_name :
    let tree := FileTree.ofTexts [("dsdl/B.uavcan", "uint8 b")]
    let path := Path.ofText "dsdl/A.uavcan"
    let text := "B a\nuint8 a"
    let edited := "# about a\n\tB a # nested\n \nuint8 a#again"
    let load := fun text => ((loadText tree (Path.ofText "dsdl") path text).run {}).1
    ((∀ f ∈ tree.files, f.path.text = path.text → f.path = path) ∧
      Edited 1 (Text.lines text.toList) (Text.lines edited.toList) [2, 4]) ∧
      load text = .error (.line "dsdl/A.uavcan" 2 (.repeatedName "a")) ∧
      load edited = .error (.line "dsdl/A.uavcan" 4 (.repeatedName "a")) := by
  intro tree path text edited load
  have hpath : ∀ f ∈ tree.files, f.path.text = path.text → f.path = path := by
    intro f hf htext
    rw [path_of_mem_ofTexts (List.mem_map_of_mem hf), htext]
    rfl
  have hlines : Text.lines text.toList = [['B', ' ', 'a'], "uint8 a".toList] := by decide +kernel
  have heditedLines : Text.lines edited.toList =
      [[] ++ '#' :: " about a".toList,
        ['\t'] ++ ((['B', ' ', 'a'] ++ ([' '] ++ [])) ++ '#' :: " nested".toList),
        [' '] ++ [], "uint8 a".toList ++ '#' :: "again".toList] := by
    decide +kernel
  have hremark : IsSilent ([] ++ '#' :: " about a".toList) :=
    ⟨[], _, rfl, nofun, isComment_mark _⟩
  have hblank : ∀ c ∈ [' '], Text.isBlank c = true := List.forall_mem_singleton.mpr rfl
  have htab : ∀ c ∈ ['\t'], Text.isBlank c = true := List.forall_mem_singleton.mpr rfl
  have hsilent : IsSilent ([' '] ++ []) := ⟨_, _, rfl, hblank, isComment_nil⟩
  have hedited : Edited 1 (Text.lines text.toList) (Text.lines edited.toList) [2, 4] := by
    rw [hlines, heditedLines]
    refine .insert hremark (.line ?_ (.insert hsilent (.line (.remark _ .refl) (.nil 5))))
    exact .indent htab (.remark _ (.pad hblank isComment_nil .refl))
  have hload : load text = .error (.line "dsdl/A.uavcan" 2 (.repeatedName "a")) := by
    decide +kernel
  refine ⟨⟨hpath, hedited⟩, hload, ?_⟩
  rcases (mirrors_loadText hpath hedited).1 {} with
    ⟨id, after, hrun, -⟩ | ⟨e, e', after, hrun, hrun', hmoved⟩
  · have hok : load text = .ok id := congrArg Prod.fst hrun
    rw [hload] at hok
    cases hok
  · have herror : load text = .error e := congrArg Prod.fst hrun
    rw [hload] at herror
    cases herror
    obtain ⟨number, hnumber, rfl⟩ := hmoved.eq_line
    cases hnumber
    exact congrArg Prod.fst hrun'

end Load

end BusSchema
