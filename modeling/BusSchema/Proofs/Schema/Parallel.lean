import BusSchema.Proofs.Layout.Alike
import BusSchema.Proofs.Schema.References

/-!
# Reading a text over two tables

A text may be read over two tables that hold the definitions that it refers to at different
positions.  If its references are found at corresponding positions, and the definitions there have
the same spans, then what is read over the first table is read over the second one too, but for the
positions (`Load.matches_elaborateText`).
-/

namespace BusSchema

variable {R : Nat → Nat → Prop} {a b : TypeTable}

/-- If the first computation succeeds, then the second one does with a related result. -/
def Carries {α β : Type} (P : α → β → Prop) (x : Except LineFault α) (y : Except LineFault β) :
    Prop :=
  ∀ r, x = .ok r → ∃ r', y = .ok r' ∧ P r r'

namespace Carries

variable {α β α' β' : Type} {P : α → β → Prop} {Q : α' → β' → Prop}

theorem ok {r : α} {r' : β} (h : P r r') : Carries P (.ok r) (.ok r') := by
  intro s hs
  cases hs
  exact ⟨r', rfl, h⟩

theorem error {fault : LineFault} {y : Except LineFault β} : Carries P (.error fault) y := by
  intro s hs
  cases hs

theorem bind {x : Except LineFault α} {y : Except LineFault β} {f : α → Except LineFault α'}
    {g : β → Except LineFault β'} (h : Carries P x y)
    (hf : ∀ r r', P r r' → Carries Q (f r) (g r')) : Carries Q (x >>= f) (y >>= g) := by
  intro s hs
  obtain ⟨r, hr, hrest⟩ := bind_eq_ok_iff.mp hs
  obtain ⟨r', hr', hrelated⟩ := h r hr
  obtain ⟨s', hs', hlast⟩ := hf r r' hrelated s hrest
  exact ⟨s', bind_eq_ok_iff.mpr ⟨r', hr', hs'⟩, hlast⟩

/-- The same computation carries every relation that its results have to themselves. -/
theorem same {x : Except LineFault α} {P : α → α → Prop} (h : ∀ r, x = .ok r → P r r) :
    Carries P x x := by
  intro r hr
  exact ⟨r, hr, h r hr⟩

end Carries

/-! ## Drafts -/

/-- The sections that are being put together are alike, and equally long so far. -/
structure SectionDraft.Alike (R : Nat → Nat → Prop) (a b : SectionDraft) : Prop where
  toSection : a.toSection.Alike R b.toSection
  offset : b.offset = a.offset

/-- The drafts have sections that are alike, and have noted the same names. -/
structure DefinitionDraft.Alike (R : Nat → Nat → Prop) (a b : DefinitionDraft) : Prop where
  request : a.request.Alike R b.request
  response : Option.Rel (SectionDraft.Alike R) a.response b.response
  names : b.names = a.names

/-- The attributes are the same constant, or fields that are alike. -/
inductive Attribute.Alike (R : Nat → Nat → Prop) : Attribute → Attribute → Prop
  | field {f g : Field} (h : f.Alike R g) : Alike R (.field f) (.field g)
  | constant (c : Constant) : Alike R (.constant c) (.constant c)

theorem Attribute.Alike.name_eq {f g : Attribute} (h : f.Alike R g) : g.name = f.name := by
  cases h with
  | field h => exact h.name
  | constant c => rfl

/-- Types that are alike, with the same name and literal, make attributes that are alike. -/
theorem Attribute.carries_make {type other : FieldType} (h : type.Alike R other)
    (name literal : Option String) :
    Carries (Attribute.Alike R) (make type name literal) (make other name literal) := by
  cases name with
  | none =>
    cases h with
    | padding p => exact .ok (.field ⟨rfl, .padding p⟩)
    | primitive p => exact .error
    | compound h => exact .error
    | array h mode size => exact .error
  | some name =>
    unfold make
    dsimp only
    rw [h.isPadding_eq]
    split
    · exact .error
    cases literal with
    | none => exact .ok (.field ⟨rfl, h⟩)
    | some literal =>
      cases h with
      | primitive p =>
        refine Carries.same fun made hmade => ?_
        obtain ⟨c, -, rfl⟩ := map_eq_ok_iff.mp hmade
        exact .constant c
      | padding p => exact .error
      | compound h => exact .error
      | array h mode size => exact .error

section Spans

variable (hspans : ∀ i j, R i j → spanAt b.spans j = spanAt a.spans i)

include hspans

theorem FieldType.carries_makeArray {element other : FieldType} (h : element.Alike R other)
    (bound : BoundExpr) :
    Carries (FieldType.Alike R) (makeArray a element bound) (makeArray b other bound) := by
  unfold makeArray
  rw [h.isPadding_eq]
  split
  · exact .error
  refine Carries.bind (Carries.same (P := Eq) fun _ _ => rfl) ?_
  rintro ⟨mode, size⟩ _ rfl
  have harray : (array element mode size).Alike R (array other mode size) := .array h mode size
  have hlength : (array other mode size).greatest? b = (array element mode size).greatest? a :=
    harray.greatestWith_eq hspans
  dsimp only
  rw [hlength]
  split
  · exact .error
  · exact .ok harray

namespace SectionDraft

theorem carries_append {draft other : SectionDraft} {f g : Field} (hdraft : draft.Alike R other)
    (hf : f.Alike R g) :
    Carries (SectionDraft.Alike R) (draft.append a f) (other.append b g) := by
  have hlength : g.type.greatest? b = f.type.greatest? a := hf.type.greatestWith_eq hspans
  unfold append
  rw [hlength, hdraft.offset]
  split
  · exact .error
  · refine .ok ⟨⟨?_, hdraft.toSection.constants, hdraft.toSection.isUnion⟩, rfl⟩
    exact List.rel_append hdraft.toSection.fields (.cons hf .nil)

omit hspans in
theorem carries_align {draft other : SectionDraft} (hdraft : draft.Alike R other) :
    Carries (SectionDraft.Alike R) draft.align other.align := by
  unfold align
  rw [hdraft.offset]
  split
  · exact .ok hdraft
  · split
    · exact .error
    · refine .ok ⟨⟨?_, hdraft.toSection.constants, hdraft.toSection.isUnion⟩, rfl⟩
      exact List.rel_append hdraft.toSection.fields (.cons ⟨rfl, .padding _⟩ .nil)

/-- Fields that are alike take the same place in sections that are alike. -/
theorem carries_pushField {draft other : SectionDraft} {f g : Field}
    (hdraft : draft.Alike R other) (hf : f.Alike R g) :
    Carries (SectionDraft.Alike R) (draft.pushField a f) (other.pushField b g) := by
  unfold pushField
  rw [hf.type.isCompound_eq]
  split
  · refine (carries_align hdraft).bind fun _ _ haligned => ?_
    refine (carries_append hspans haligned hf).bind fun _ _ happended => ?_
    exact carries_align happended
  · exact carries_append hspans hdraft hf

end SectionDraft

end Spans

namespace DefinitionDraft

variable {draft other : DefinitionDraft}

theorem Alike.current (h : draft.Alike R other) : draft.current.Alike R other.current := by
  obtain ⟨request, response, names⟩ := draft
  obtain ⟨otherRequest, otherResponse, otherNames⟩ := other
  obtain ⟨hrequest, hresponse, -⟩ := h
  cases hresponse with
  | none => exact hrequest
  | some hresponse => exact hresponse

theorem Alike.setCurrent (h : draft.Alike R other) {s t : SectionDraft} (hs : s.Alike R t) :
    (draft.setCurrent s).Alike R (other.setCurrent t) := by
  obtain ⟨request, response, names⟩ := draft
  obtain ⟨otherRequest, otherResponse, otherNames⟩ := other
  obtain ⟨hrequest, hresponse, hnames⟩ := h
  cases hresponse with
  | none => exact ⟨hs, .none, hnames⟩
  | some hresponse => exact ⟨hrequest, .some hs, hnames⟩

theorem alike_empty : DefinitionDraft.Alike R {} {} :=
  ⟨⟨⟨.nil, rfl, rfl⟩, rfl⟩, .none, rfl⟩

theorem carries_separate (h : draft.Alike R other) :
    Carries (DefinitionDraft.Alike R) draft.separate other.separate := by
  obtain ⟨request, response, names⟩ := draft
  obtain ⟨otherRequest, otherResponse, otherNames⟩ := other
  obtain ⟨hrequest, hresponse, -⟩ := h
  cases hresponse with
  | none => exact .ok ⟨hrequest, .some ⟨⟨.nil, rfl, rfl⟩, rfl⟩, rfl⟩
  | some hresponse => exact .error

theorem carries_direct (h : draft.Alike R other) (name : String) (hasArgument : Bool) :
    Carries (DefinitionDraft.Alike R) (draft.direct name hasArgument)
      (other.direct name hasArgument) := by
  unfold direct
  split
  · have hsection := h.current.toSection
    exact .ok (h.setCurrent ⟨⟨hsection.fields, hsection.constants, rfl⟩, h.current.offset⟩)
  · split
    · exact .ok h
    · exact .error

theorem carries_noteName (h : draft.Alike R other) (name : String) :
    Carries (DefinitionDraft.Alike R) (draft.noteName name) (other.noteName name) := by
  unfold noteName
  rw [h.names]
  split
  · exact .ok h
  · split
    · exact .error
    · exact .ok ⟨h.request, h.response, rfl⟩

/-- Attributes that are alike can be added to drafts that are alike. -/
theorem carries_push (hspans : ∀ i j, R i j → spanAt b.spans j = spanAt a.spans i)
    (h : draft.Alike R other) {attr similar : Attribute} (hattr : attr.Alike R similar) :
    Carries (DefinitionDraft.Alike R) (draft.push a attr) (other.push b similar) := by
  unfold push
  rw [hattr.name_eq]
  refine (carries_noteName h attr.name).bind fun noted notedOther hnoted => ?_
  have hsection := hnoted.current.toSection
  cases hattr with
  | constant c =>
    refine .ok (hnoted.setCurrent ⟨⟨hsection.fields, ?_, hsection.isUnion⟩, hnoted.current.offset⟩)
    exact congrArg (· ++ [c]) hsection.constants
  | field hf =>
    refine (SectionDraft.carries_pushField hspans hnoted.current hf).bind fun _ _ hpushed => ?_
    exact .ok (hnoted.setCurrent hpushed)

theorem Alike.finish (h : draft.Alike R other) (name : String) (header : FileName) :
    (draft.finish name header).Alike R (other.finish name header) := by
  obtain ⟨request, response, names⟩ := draft
  obtain ⟨otherRequest, otherResponse, otherNames⟩ := other
  obtain ⟨hrequest, hresponse, -⟩ := h
  refine ⟨rfl, rfl, rfl, hrequest.toSection, ?_⟩
  cases hresponse with
  | none => exact .none
  | some hresponse => exact .some hresponse.toSection

end DefinitionDraft

/-! ## Lines -/

namespace Load

variable {α β α' β' : Type} {P : α → β → Prop} {Q : α' → β' → Prop}

/--
If the first computation succeeds over the first table, then it leaves that table as it is, and so
does the second computation with the second table, with a related result.
-/
def Matches (P : α → β → Prop) (a b : TypeTable) (x : Load α) (y : Load β) : Prop :=
  ∀ r after, x.run a = (.ok r, after) → after = a ∧ ∃ r', y.run b = (.ok r', b) ∧ P r r'

theorem matches_pure {r : α} {r' : β} (h : P r r') : Matches P a b (pure r) (pure r') := by
  intro s after hs
  cases hs
  exact ⟨rfl, r', rfl, h⟩

theorem matches_throw {e : SchemaError} {y : Load β} : Matches P a b (throw e) y := by
  intro s after hs
  cases hs

theorem Matches.bind {x : Load α} {y : Load β} {f : α → Load α'} {g : β → Load β'}
    (h : Matches P a b x y) (hf : ∀ r r', P r r' → Matches Q a b (f r) (g r')) :
    Matches Q a b (x >>= f) (y >>= g) := by
  intro s after hs
  obtain ⟨r, middle, hr, hrest⟩ := run_bind_eq_ok hs
  obtain ⟨rfl, r', hr', hrelated⟩ := h r middle hr
  obtain ⟨hafter, s', hs', hlast⟩ := hf r r' hrelated s after hrest
  refine ⟨hafter, s', ?_, hlast⟩
  rw [run_bind, hr']
  exact hs'

theorem matches_ofLine {located : LineFault → SchemaError} {x : Except LineFault α}
    {y : Except LineFault β} (h : Carries P x y) :
    Matches P a b (ofLine located x) (ofLine located y) := by
  intro r after hr
  obtain ⟨hx, rfl⟩ := ofLine_eq_ok hr
  obtain ⟨r', rfl, hrelated⟩ := h r hx
  exact ⟨rfl, r', rfl, hrelated⟩

theorem matches_get_ofLine {located : LineFault → SchemaError}
    {f : TypeTable → Except LineFault α} {g : TypeTable → Except LineFault β}
    (h : Carries P (f a) (g b)) :
    Matches P a b (get >>= fun table => ofLine located (f table))
      (get >>= fun table => ofLine located (g table)) := by
  intro r after hr
  rw [run_get_bind] at hr ⊢
  exact matches_ofLine h r after hr

section Elaboration

variable {resolve other : Resolver} {located : LineFault → SchemaError}

theorem matches_elaborateScalar (cast : CastMode) {expr : ScalarExpr}
    (hresolve : ∀ written ∈ expr.references,
      Matches R a b (resolve located written) (other located written)) :
    Matches (FieldType.Alike R) a b (elaborateScalar resolve located cast expr)
      (elaborateScalar other located cast expr) := by
  cases expr with
  | padding digits =>
    refine matches_ofLine (Carries.same fun type htype => ?_)
    obtain ⟨p, rfl⟩ := FieldType.readPadding_eq_ok htype
    exact .padding p
  | boolean => exact matches_pure (.primitive _)
  | numeric kind digits =>
    refine matches_ofLine (Carries.same fun type htype => ?_)
    obtain ⟨p, rfl⟩ := FieldType.readNumeric_eq_ok htype
    exact .primitive p
  | named reference =>
    refine (hresolve reference (List.mem_singleton_self reference)).bind fun i j hij => ?_
    exact matches_pure (.compound hij)

variable (hspans : ∀ i j, R i j → spanAt b.spans j = spanAt a.spans i)

include hspans

theorem matches_elaborateType (cast : CastMode) {expr : TypeExpr}
    (hresolve : ∀ written ∈ expr.references,
      Matches R a b (resolve located written) (other located written)) :
    Matches (FieldType.Alike R) a b (elaborateType resolve located cast expr)
      (elaborateType other located cast expr) := by
  cases expr with
  | scalar type => exact matches_elaborateScalar cast hresolve
  | array element bound =>
    refine (matches_elaborateScalar cast hresolve).bind fun type similar htype => ?_
    exact matches_get_ofLine (FieldType.carries_makeArray hspans htype bound)

theorem matches_elaborateLine {draft similar : DefinitionDraft} (hdraft : draft.Alike R similar)
    {line : List Char} (hresolve : ∀ written ∈ referencesIn line,
      Matches R a b (resolve located written) (other located written)) :
    Matches (DefinitionDraft.Alike R) a b (elaborateLine resolve located draft line)
      (elaborateLine other located similar line) := by
  unfold elaborateLine
  split
  · exact matches_pure hdraft
  split
  · exact matches_throw
  next statement hread =>
  rw [referencesIn_of_read? hread] at hresolve
  cases statement with
  | separator => exact matches_ofLine (DefinitionDraft.carries_separate hdraft)
  | directive name hasArgument =>
    exact matches_ofLine (DefinitionDraft.carries_direct hdraft name hasArgument)
  | member attr =>
    refine (matches_elaborateType hspans attr.cast hresolve).bind fun type alike htype => ?_
    refine (matches_ofLine (Attribute.carries_make htype attr.name attr.literal)).bind ?_
    intro made alike hmade
    exact matches_get_ofLine (DefinitionDraft.carries_push hspans hdraft hmade)

theorem matches_elaborateLines {path : String} {number : Nat} {lines : List (List Char)}
    {draft similar : DefinitionDraft} (hdraft : draft.Alike R similar)
    (hresolve : ∀ index line, lines[index]? = some line → ∀ written ∈ referencesIn line,
      Matches R a b (resolve (.line path (number + index)) written)
        (other (.line path (number + index)) written)) :
    Matches (DefinitionDraft.Alike R) a b (elaborateLines resolve path number lines draft)
      (elaborateLines other path number lines similar) := by
  induction lines generalizing number draft similar with
  | nil => exact matches_pure hdraft
  | cons line rest ih =>
    refine (matches_elaborateLine hspans hdraft (hresolve 0 line rfl)).bind fun _ _ hnext => ?_
    refine ih hnext fun index later hlater written hwritten => ?_
    rw [Nat.add_right_comm, Nat.add_assoc]
    exact hresolve (index + 1) later hlater written hwritten

/-- A text is read alike over two tables if its references are found at corresponding positions. -/
theorem matches_elaborateText {source : SourceFile} {text : String}
    (hresolve : ∀ index line, (Text.lines text.toList)[index]? = some line →
      ∀ written ∈ referencesIn line,
        Matches R a b (resolve (.line source.path.text (index + 1)) written)
          (other (.line source.path.text (index + 1)) written)) :
    Matches (Definition.Alike R) a b (elaborateText resolve source text)
      (elaborateText other source text) := by
  refine Matches.bind (matches_elaborateLines hspans DefinitionDraft.alike_empty ?_)
    fun _ _ hdraft => matches_pure (hdraft.finish source.name source.header)
  intro index line hline written hwritten
  rw [Nat.add_comm]
  exact hresolve index line hline written hwritten

end Elaboration

end Load

end BusSchema
