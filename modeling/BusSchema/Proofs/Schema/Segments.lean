import BusSchema.Proofs.Schema.Selection

/-!
# Segments of names

A reference is taken apart into segments, and the file that it leads to has a name that is put
together from directories again.  Empty segments stay in the directory, so the two names can be
different, but then the name that is written in the reference has an empty segment, which no name of
a file behind a reference has (`Reference.regular_of_locate`, `Reference.name_of_locate`).
-/

namespace BusSchema

namespace Text

theorem pieces_cons_of_ne {separator c : Char} (hc : c ≠ separator) (rest : List Char) :
    ∃ piece others, pieces separator rest = piece :: others ∧
      pieces separator (c :: rest) = (c :: piece) :: others := by
  have hne : ∀ text, pieces separator text ≠ [] := by
    intro text
    unfold pieces
    split
    · exact List.cons_ne_nil _ _
    · split
      · exact List.cons_ne_nil _ _
      · split <;> exact List.cons_ne_nil _ _
  obtain ⟨piece, others, hrest⟩ := List.exists_cons_of_ne_nil (hne rest)
  refine ⟨piece, others, hrest, ?_⟩
  rw [pieces, if_neg hc, hrest]

theorem pieces_eq_splitOn (separator : Char) (text : List Char) :
    pieces separator text = text.splitOn separator := by
  induction text with
  | nil => exact (List.splitOn_nil separator).symm
  | cons c rest ih =>
    rw [List.splitOn, List.splitOnP_cons_eq_if_modifyHead, ← List.splitOn, ← ih]
    by_cases hc : c = separator
    · rw [pieces, if_pos hc, if_pos (by simpa using hc)]
    · obtain ⟨piece, others, hrest, hpieces⟩ := pieces_cons_of_ne hc rest
      rw [hpieces, hrest, if_neg (by simpa using hc), List.modifyHead_cons]

theorem notMem_of_mem_pieces {separator : Char} {text : List Char} :
    ∀ piece ∈ pieces separator text, separator ∉ piece := by
  induction text with
  | nil =>
    intro piece hpiece
    rw [List.mem_singleton.mp hpiece]
    exact List.not_mem_nil
  | cons c rest ih =>
    by_cases hc : c = separator
    · rw [pieces, if_pos hc]
      exact List.forall_mem_cons.mpr ⟨List.not_mem_nil, ih⟩
    · obtain ⟨piece, others, hrest, hpieces⟩ := pieces_cons_of_ne hc rest
      rw [hrest] at ih
      obtain ⟨hfirst, hothers⟩ := List.forall_mem_cons.mp ih
      rw [hpieces]
      refine List.forall_mem_cons.mpr ⟨?_, hothers⟩
      rw [List.mem_cons, not_or]
      exact ⟨Ne.symm hc, hfirst⟩

theorem notMem_of_mem_split {separator : Char} {text s : String} (hs : s ∈ split separator text) :
    separator ∉ s.toList := by
  obtain ⟨piece, hpiece, rfl⟩ := List.mem_map.mp hs
  rw [String.toList_ofList]
  exact notMem_of_mem_pieces piece hpiece

/-- The segments of a name that is put together from segments. -/
theorem split_join {segments : List String} (hne : segments ≠ [])
    (hpoints : ∀ s ∈ segments, '.' ∉ s.toList) : split '.' (join "." segments) = segments := by
  have hlist : (join "." segments).toList = ['.'].intercalate (segments.map String.toList) :=
    String.toList_intercalate
  have hpieces : pieces '.' (join "." segments).toList = segments.map String.toList := by
    rw [pieces_eq_splitOn, hlist]
    refine List.splitOn_intercalate '.' ?_ (by simpa using hne)
    intro l hl
    obtain ⟨s, hs, rfl⟩ := List.mem_map.mp hl
    exact hpoints s hs
  rw [split, hpieces, List.map_map]
  exact (List.map_congr_left fun s _ => String.ofList_toList).trans (List.map_id segments)

theorem join_concat {segments : List String} (hne : segments ≠ []) (last : String) :
    join "." (segments ++ [last]) = join "." segments ++ "." ++ last := by
  have hlast : join "." [last] = last := String.intercalate_singleton
  have happend : join "." (segments ++ [last]) = join "." segments ++ "." ++ join "." [last] :=
    String.intercalate_append_of_ne_nil hne (List.cons_ne_nil last [])
  rw [happend, hlast]

end Text

/-- All segments of the name hold something. -/
def Regular (name : String) : Prop := "" ∉ Text.split '.' name

/-- A namespace that is put together from segments is empty if there are none but an empty one. -/
theorem eq_nil_or_singleton_of_join_eq_empty {segments : List String}
    (hpoints : ∀ s ∈ segments, '.' ∉ s.toList) (h : Text.join "." segments = "") :
    segments = [] ∨ segments = [""] := by
  by_cases hne : segments = []
  · exact Or.inl hne
  · have hsplit := Text.split_join hne hpoints
    rw [h] at hsplit
    exact Or.inr hsplit.symm

/-- The segments of a name in a namespace are those of the namespace and the name. -/
theorem split_qualify {segments : List String} {name : String}
    (hpoints : ∀ s ∈ segments ++ [name], '.' ∉ s.toList) :
    Text.split '.' (qualify (Text.join "." segments) name) =
      if Text.join "." segments = "" then [name] else segments ++ [name] := by
  unfold qualify
  split
  · have hname : Text.join "." [name] = name := String.intercalate_singleton
    rw [← hname]
    refine Text.split_join (List.cons_ne_nil _ _) fun s hs => ?_
    exact hpoints s (List.mem_append_right _ hs)
  · next h =>
    have hne : segments ≠ [] := by
      rintro rfl
      exact h rfl
    rw [← Text.join_concat hne]
    exact Text.split_join (List.append_ne_nil_of_left_ne_nil hne _) hpoints

namespace Reference

variable {nameSpace text : String} {reference : Reference}

theorem isPrefix_of_ofReversed? {reversed : List String}
    (h : ofReversed? reversed = some reference) :
    reference.nameSpace ++ [reference.name] <+: reversed.reverse := by
  unfold ofReversed? at h
  split at h
  · cases h
  · cases h
    exact List.prefix_refl _
  · cases h
    exact List.prefix_refl _
  · split at h
    · cases h
      simp
    · obtain ⟨major, -, rfl⟩ := Option.map_eq_some_iff.mp h
      simp

/-- The segments of a reference have no points. -/
theorem notMem_of_read? (h : read? nameSpace text = some reference) :
    ∀ s ∈ reference.nameSpace ++ [reference.name], '.' ∉ s.toList := by
  intro s hs
  have hmem := (isPrefix_of_ofReversed? h).subset hs
  rw [List.reverse_reverse] at hmem
  exact Text.notMem_of_mem_split hmem

end Reference

theorem Path.names_map_name (segments : List String) :
    Path.names (segments.map .name) = segments := by
  rw [Path.names, List.filterMap_map]
  exact List.filterMap_some

/-- The name in a base name is one of its pieces between points, and not empty. -/
theorem FileName.name_of_read {basename : String} {header : FileName}
    (h : FileName.read basename = .ok header) :
    header.name ≠ "" ∧ header.name ∈ Text.split '.' basename := by
  have hunversioned : ∀ name id, FileName.unversioned name id = .ok header →
      header.name ≠ "" ∧ header.name = name := by
    intro name id h
    unfold FileName.unversioned at h
    split at h
    · cases h
    · next hname =>
      cases h
      exact ⟨hname, rfl⟩
  have hversioned : ∀ name id major minor, FileName.versioned name id major minor = .ok header →
      header.name ≠ "" ∧ header.name = name := by
    intro name id major minor h
    unfold FileName.versioned at h
    split at h
    · cases h
    next hname =>
    split at h
    · cases h
      exact ⟨hname, rfl⟩
    · cases h
  have hparts : ∀ parts, FileName.ofParts parts = .ok header →
      header.name ≠ "" ∧ header.name ∈ parts := by
    intro parts h
    unfold FileName.ofParts at h
    split at h
    · obtain ⟨hne, hname⟩ := hunversioned _ _ h
      exact ⟨hne, by simp [hname]⟩
    · obtain ⟨id, -, hrest⟩ := bind_eq_ok_iff.mp h
      obtain ⟨hne, hname⟩ := hunversioned _ _ hrest
      exact ⟨hne, by simp [hname]⟩
    · obtain ⟨hne, hname⟩ := hversioned _ _ _ _ h
      exact ⟨hne, by simp [hname]⟩
    · obtain ⟨id, -, hrest⟩ := bind_eq_ok_iff.mp h
      obtain ⟨hne, hname⟩ := hversioned _ _ _ _ hrest
      exact ⟨hne, by simp [hname]⟩
    · cases h
  unfold FileName.read at h
  dsimp only at h
  split at h
  · obtain ⟨hne, hmem⟩ := hparts _ h
    exact ⟨hne, List.dropLast_subset _ hmem⟩
  · cases h

/-- The name of a schema file before it is qualified is not empty and has no points. -/
theorem SourceFile.header_name_of_ofPath {root path : Path} {s : SourceFile}
    (h : SourceFile.ofPath root path = .ok s) :
    s.header.name ≠ "" ∧ '.' ∉ s.header.name.toList := by
  obtain ⟨_, -, hheader⟩ := SourceFile.header_of_ofPath h
  obtain ⟨hne, hmem⟩ := FileName.name_of_read hheader
  exact ⟨hne, Text.notMem_of_mem_split hmem⟩

/-! ## Files behind references -/

namespace Reference

variable {tree : FileTree} {root : Path} {nameSpace text written : String} {reference : Reference}
  {located : LineFault → SchemaError} {s : SourceFile}

/-- A schema file in the directory of a reference has the segments of that directory in its name. -/
theorem nameSpace_of_directory {path : Path} (hof : SourceFile.ofPath root path = .ok s)
    (hschema : SourceFile.isSchemaFile path = true)
    (hparent : path.parent? = some (reference.directory root).components) :
    s.nameSpace = Text.join "." (reference.nameSpace.filter (· ≠ "")) := by
  have hne := components_ne_root hschema hparent
  obtain ⟨front, hfront, hnameSpace⟩ := SourceFile.parent?_of_ofPath hof hschema hne
  rw [hparent, components_directory, Option.some.injEq] at hfront
  rw [hnameSpace, ← List.append_cancel_left hfront, Path.names_map_name]

/-- The name of a file behind a reference leaves out the empty segments of the namespace. -/
theorem name_of_locate (h : reference.locate tree root written located = .ok s) :
    s.name = qualify (Text.join "." (reference.nameSpace.filter (· ≠ ""))) reference.name ∧
      reference.name ≠ "" := by
  obtain ⟨paths, hpaths, hlatest⟩ := locate_eq_ok h
  obtain ⟨hpath, hschema, hof, hname⟩ := mem_sourcesNamed.mp (mem_of_latest? hlatest)
  obtain ⟨-, hparent⟩ := (FileTree.mem_files?_iff hpaths).mp hpath
  refine ⟨?_, ?_⟩
  · rw [SourceFile.name, nameSpace_of_directory hof hschema hparent, hname]
  · rw [← hname]
    exact (SourceFile.header_name_of_ofPath hof).1

/-- No segment of the name of a file behind a reference is empty. -/
theorem regular_of_locate (hread : read? nameSpace text = some reference)
    (h : reference.locate tree root written located = .ok s) : Regular s.name := by
  obtain ⟨hname, hne⟩ := name_of_locate h
  have hpoints : ∀ s ∈ reference.nameSpace.filter (· ≠ "") ++ [reference.name],
      '.' ∉ s.toList := by
    intro segment hsegment
    refine notMem_of_read? hread segment ?_
    exact (List.filter_sublist.append_right _).subset hsegment
  rw [Regular, hname, split_qualify hpoints]
  split
  · simpa using hne.symm
  · simpa using hne.symm

/-- A reference to a name without empty segments leads to a file of that name. -/
theorem name_of_locate_of_regular (hread : read? nameSpace text = some reference)
    (h : reference.locate tree root written located = .ok s)
    (hregular : Regular reference.fullName) : s.name = reference.fullName := by
  obtain ⟨hname, -⟩ := name_of_locate h
  have hpoints := notMem_of_read? hread
  rw [Regular, fullName, nameSpaceText, split_qualify hpoints] at hregular
  rw [hname, fullName, nameSpaceText]
  split at hregular
  · next hempty =>
    have hsegments := eq_nil_or_singleton_of_join_eq_empty
      (fun s hs => hpoints s (List.mem_append_left _ hs)) hempty
    rcases hsegments with hsegments | hsegments
    · rw [hsegments]
      rfl
    · rw [hsegments]
      rfl
  · have hfilter : reference.nameSpace.filter (· ≠ "") = reference.nameSpace := by
      rw [List.filter_eq_self]
      rintro segment hsegment
      simp only [ne_eq, decide_eq_true_eq]
      rintro rfl
      exact hregular (List.mem_append_left _ hsegment)
    rw [hfilter]

end Reference

end BusSchema
