import BusSchema.Proofs.Schema.Overflow

/-!
# Where the fields of a section lie

The fields that are written in a section keep their order, and padding is put before and behind
those that are compound (`place`).  So every compound field starts on a byte boundary, and ends on
one or at padding up to the next one (`onBytes_place`), and all padding that was not written stands
beside a compound field (`exists_placements`).  Nothing is added exactly if all compound fields lie
between byte boundaries as they are written (`place_eq_self_iff`).
-/

namespace BusSchema

/-- The number of bits of fields that lie one behind the other. -/
def extent (table : TypeTable) (fields : List Field) : Nat :=
  total (fields.map fun f => f.type.greatest table)

/-- The padding that leads from the end of fields to the next byte boundary. -/
def fill (table : TypeTable) (fields : List Field) : Option Padding :=
  (Padding.ofWidth (SectionDraft.gap (extent table fields))).toOption

/-- The fields of a section in which the given ones are written. -/
def place (table : TypeTable) (declared : List Field) : List Field :=
  declared.foldl (placed table) []

/-! ## Padding up to a byte boundary -/

section Fill

variable (table : TypeTable) (fields : List Field)

theorem extent_append (later : List Field) :
    extent table (fields ++ later) = extent table fields + extent table later := by
  rw [extent, List.map_append, total_append]
  rfl

theorem padded_eq :
    padded table fields = fields ++ (fill table fields).toList.map Field.ofPadding := by
  unfold padded fill extent
  cases Padding.ofWidth _ with
  | error e => exact (List.append_nil fields).symm
  | ok p => rfl

theorem fill_eq_none_iff : fill table fields = none ↔ extent table fields % 8 = 0 := by
  unfold fill Padding.ofWidth SectionDraft.gap
  split
  · refine iff_of_false nofun ?_
    omega
  · refine iff_of_true rfl ?_
    omega

variable {table fields}

theorem width_of_fill {p : Padding} (h : fill table fields = some p) :
    p.width = 8 - extent table fields % 8 ∧ p.width ≤ 7 := by
  have hunaligned : extent table fields % 8 ≠ 0 := by
    intro haligned
    rw [(fill_eq_none_iff table fields).mpr haligned] at h
    cases h
  unfold fill Padding.ofWidth SectionDraft.gap at h
  split at h
  · cases h
    dsimp only
    omega
  · cases h

variable (table fields)

theorem extent_padded_mod : extent table (padded table fields) % 8 = 0 := by
  rw [padded_eq, extent_append]
  cases hfill : fill table fields with
  | none => exact (fill_eq_none_iff table fields).mp hfill
  | some p =>
    have hwidth := (width_of_fill hfill).1
    have hlast : extent table [Field.ofPadding p] = p.width := rfl
    rw [Option.toList_some, List.map_singleton, hlast]
    omega

theorem padded_eq_self_iff : padded table fields = fields ↔ extent table fields % 8 = 0 := by
  rw [padded_eq, ← fill_eq_none_iff]
  cases fill table fields <;> simp

end Fill

theorem isCompound_ofPadding {paddings : List Padding} {f : Field}
    (h : f ∈ paddings.map Field.ofPadding) : f.type.isCompound = false := by
  obtain ⟨p, -, rfl⟩ := List.mem_map.mp h
  rfl

/-! ## Padding around fields -/

/-- A field as it is written, with the padding that was put around it. -/
structure Placement where
  before : Option Padding
  field : Field
  behind : Option Padding
  /-- Only compound fields have padding around them, which is narrower than a byte. -/
  beside : ∀ p ∈ before.toList ++ behind.toList, field.type.isCompound = true ∧ p.width ≤ 7

namespace Placement

/-- The field with its padding. -/
def fields (p : Placement) : List Field :=
  p.before.toList.map Field.ofPadding ++ p.field :: p.behind.toList.map Field.ofPadding

/-- The padding alone. -/
def added (p : Placement) : List Padding := p.before.toList ++ p.behind.toList

theorem perm_fields (p : Placement) : p.fields.Perm (p.field :: p.added.map Field.ofPadding) := by
  unfold fields added
  rw [List.map_append]
  exact List.perm_middle

end Placement

/-- A field is put behind others with padding around it. -/
theorem placed_eq (table : TypeTable) (fields : List Field) (field : Field) :
    ∃ p : Placement, p.field = field ∧ placed table fields field = fields ++ p.fields := by
  unfold placed
  split
  · next hcompound =>
    refine ⟨⟨fill table fields, field, fill table (padded table fields ++ [field]), ?_⟩, rfl, ?_⟩
    · intro p hp
      refine ⟨hcompound, ?_⟩
      rcases List.mem_append.mp hp with hp | hp
      · exact (width_of_fill (Option.mem_toList.mp hp)).2
      · exact (width_of_fill (Option.mem_toList.mp hp)).2
    · rw [padded_eq table (padded table fields ++ [field])]
      nth_rewrite 1 [padded_eq table fields]
      simp only [Placement.fields, List.append_assoc, List.singleton_append]
  · exact ⟨⟨none, field, none, nofun⟩, rfl, rfl⟩

theorem place_concat (table : TypeTable) (declared : List Field) (f : Field) :
    place table (declared ++ [f]) = placed table (place table declared) f := by
  rw [place, List.foldl_append]
  rfl

/-- A section consists of the fields that are written in it, each with padding around it. -/
theorem exists_placements (table : TypeTable) (declared : List Field) :
    ∃ placements : List Placement, placements.map Placement.field = declared ∧
      place table declared = placements.flatMap Placement.fields := by
  induction declared using List.reverseRecOn with
  | nil => exact ⟨[], rfl, rfl⟩
  | append_singleton declared f ih =>
    obtain ⟨placements, hdeclared, hplace⟩ := ih
    obtain ⟨p, hfield, hplaced⟩ := placed_eq table (place table declared) f
    refine ⟨placements ++ [p], ?_, ?_⟩
    · rw [List.map_append, hdeclared, ← hfield]
      rfl
    · rw [place_concat, hplaced, hplace, List.flatMap_append, List.flatMap_singleton]

theorem sublist_flatMap_fields (placements : List Placement) :
    (placements.map Placement.field).Sublist (placements.flatMap Placement.fields) := by
  induction placements with
  | nil => exact .refl _
  | cons p rest ih =>
    have hfirst : [p.field].Sublist p.fields :=
      List.singleton_sublist.mpr (List.mem_append_right _ List.mem_cons_self)
    exact hfirst.append ih

theorem sublist_place (table : TypeTable) (declared : List Field) :
    declared.Sublist (place table declared) := by
  obtain ⟨placements, hdeclared, hplace⟩ := exists_placements table declared
  rw [hplace, ← hdeclared]
  exact sublist_flatMap_fields placements

/-- The fields of a section are those that are written and padding. -/
theorem perm_flatMap_fields (placements : List Placement) :
    (placements.flatMap Placement.fields).Perm
      (placements.map Placement.field ++
        (placements.flatMap Placement.added).map Field.ofPadding) := by
  induction placements with
  | nil => exact .refl _
  | cons p rest ih =>
    have hboth := p.perm_fields.append ih
    rw [List.flatMap_cons, List.flatMap_cons, List.map_cons, List.map_append]
    refine hboth.trans ?_
    rw [List.cons_append, List.cons_append]
    refine (List.perm_append_comm_assoc _ _ _).cons p.field |>.trans ?_
    rfl

/-- The padding that is added to a section, and whether there is any. -/
theorem perm_place (table : TypeTable) (declared : List Field) :
    ∃ added : List Padding, (∀ p ∈ added, p.width ≤ 7) ∧
      (place table declared).Perm (declared ++ added.map Field.ofPadding) ∧
      (added = [] ↔ place table declared = declared) := by
  obtain ⟨placements, hdeclared, hplace⟩ := exists_placements table declared
  have hperm := perm_flatMap_fields placements
  rw [hdeclared, ← hplace] at hperm
  refine ⟨placements.flatMap Placement.added, ?_, hperm, ?_, ?_⟩
  · intro p hp
    obtain ⟨placement, -, hadded⟩ := List.mem_flatMap.mp hp
    exact (placement.beside p hadded).2
  · intro hnone
    have hbare : ∀ p ∈ placements, p.fields = [p.field] := by
      intro p hp
      have hadded : p.added = [] := List.flatMap_eq_nil_iff.mp hnone p hp
      obtain ⟨hbefore, hbehind⟩ := List.append_eq_nil_iff.mp hadded
      rw [Placement.fields, hbefore, hbehind]
      rfl
    rw [hplace, ← hdeclared, List.map_eq_flatMap]
    exact List.flatMap_congr hbare
  · intro hsame
    have hlength := hperm.length_eq
    rw [hsame, List.length_append, List.length_map] at hlength
    exact List.length_eq_zero_iff.mp (by omega)

section Tables

variable {a b : TypeTable}

theorem extent_congr {fields : List Field}
    (h : ∀ f ∈ fields, f.type.greatest a = f.type.greatest b) :
    extent a fields = extent b fields := by
  unfold extent
  rw [List.map_congr_left h]

theorem padded_congr {fields : List Field}
    (h : ∀ f ∈ fields, f.type.greatest a = f.type.greatest b) :
    padded a fields = padded b fields := by
  rw [padded_eq, padded_eq, fill, fill, extent_congr h]

/-- Padding is as long in one table as in another. -/
theorem greatest_eq_of_mem_append {fields : List Field} {paddings : List Padding}
    (h : ∀ f ∈ fields, f.type.greatest a = f.type.greatest b) :
    ∀ f ∈ fields ++ paddings.map Field.ofPadding, f.type.greatest a = f.type.greatest b := by
  refine List.forall_mem_append.mpr ⟨h, fun f hf => ?_⟩
  obtain ⟨p, -, rfl⟩ := List.mem_map.mp hf
  rfl

theorem placed_congr {fields : List Field} {f : Field}
    (h : ∀ g ∈ fields, g.type.greatest a = g.type.greatest b)
    (hf : f.type.greatest a = f.type.greatest b) : placed a fields f = placed b fields f := by
  have hlonger : ∀ g ∈ padded b fields ++ [f], g.type.greatest a = g.type.greatest b := by
    rw [padded_eq]
    refine List.forall_mem_append.mpr ⟨greatest_eq_of_mem_append h, fun g hg => ?_⟩
    rwa [List.mem_singleton.mp hg]
  unfold placed
  rw [padded_congr h, padded_congr hlonger]

/-- Fields are placed alike in tables in which they have the same lengths. -/
theorem place_congr {declared : List Field}
    (h : ∀ f ∈ declared, f.type.greatest a = f.type.greatest b) :
    place a declared = place b declared := by
  induction declared using List.reverseRecOn with
  | nil => rfl
  | append_singleton declared f ih =>
    obtain ⟨hdeclared, hlast⟩ := List.forall_mem_append.mp h
    obtain ⟨added, -, hperm, -⟩ := perm_place b declared
    have hplaced : ∀ g ∈ place b declared, g.type.greatest a = g.type.greatest b :=
      fun g hg => greatest_eq_of_mem_append hdeclared g (hperm.mem_iff.mp hg)
    rw [place_concat, place_concat, ih hdeclared]
    exact placed_congr hplaced (hlast f (List.mem_singleton_self f))

end Tables

namespace SectionDraft

/-- What is put into a section is placed behind the fields that it has. -/
theorem Counted.pushField_eq_ok {table : TypeTable} {draft next : SectionDraft} {field : Field}
    (hdraft : draft.Counted table) (h : draft.pushField table field = .ok next) :
    next.fields = placed table draft.fields field := by
  unfold pushField at h
  unfold placed
  split at h
  · next hcompound =>
    obtain ⟨aligned, hfirst, hrest⟩ := bind_eq_ok_iff.mp h
    obtain ⟨appended, hmiddle, hlast⟩ := bind_eq_ok_iff.mp hrest
    obtain ⟨haligned, hbefore⟩ := hdraft.align_eq_ok hfirst
    obtain ⟨happended, hfields⟩ := haligned.append_eq_ok hmiddle
    rw [if_pos hcompound, (happended.align_eq_ok hlast).2, hfields, hbefore]
  · next hcompound => rw [if_neg hcompound, (hdraft.append_eq_ok h).2]

end SectionDraft

/-! ## Byte boundaries -/

/--
A field, behind some and before others, starts on a byte boundary, and ends on one or at padding
that leads to the next one.
-/
def Fitted (table : TypeTable) (front : List Field) (f : Field) (behind : List Field) : Prop :=
  extent table front % 8 = 0 ∧
    (extent table (front ++ [f]) % 8 = 0 ∨
      ∃ (p : Padding) (rest : List Field), behind = Field.ofPadding p :: rest ∧
        p.width = 8 - extent table (front ++ [f]) % 8)

/-- Each compound field is fitted between byte boundaries. -/
def OnBytes (table : TypeTable) (fields : List Field) : Prop :=
  ∀ front f behind, fields = front ++ f :: behind → f.type.isCompound = true →
    Fitted table front f behind

/-- Each compound field starts and ends on a byte boundary. -/
def Aligned (table : TypeTable) (fields : List Field) : Prop :=
  ∀ front f behind, fields = front ++ f :: behind → f.type.isCompound = true →
    extent table front % 8 = 0 ∧ extent table (front ++ [f]) % 8 = 0

/-- A field of a longer list is one of its first part, or one of its second part. -/
theorem split_append {fields added front behind : List Field} {f : Field}
    (h : fields ++ added = front ++ f :: behind) :
    (∃ between, fields = front ++ f :: between ∧ behind = between ++ added) ∨
      ∃ between, front = fields ++ between ∧ added = between ++ f :: behind := by
  rcases List.append_eq_append_iff.mp h with ⟨between, hfront, hadded⟩ | ⟨between, hfields, hrest⟩
  · exact Or.inr ⟨between, hfront, hadded⟩
  · cases between with
    | nil => exact Or.inr ⟨[], by simpa using hfields.symm, hrest.symm⟩
    | cons g between =>
      obtain ⟨rfl, rfl⟩ := List.cons.inj hrest
      exact Or.inl ⟨between, hfields, rfl⟩

section Boundaries

variable {table : TypeTable} {fields : List Field}

theorem Fitted.append {front behind : List Field} {f : Field} (h : Fitted table front f behind)
    (added : List Field) : Fitted table front f (behind ++ added) := by
  refine ⟨h.1, h.2.imp_right ?_⟩
  rintro ⟨p, rest, rfl, hwidth⟩
  exact ⟨p, rest ++ added, rfl, hwidth⟩

/-- Fields that stay fitted only need the fields behind them to be fitted as well. -/
theorem OnBytes.append (h : OnBytes table fields) {added : List Field}
    (hadded : ∀ between f behind, added = between ++ f :: behind → f.type.isCompound = true →
      Fitted table (fields ++ between) f behind) : OnBytes table (fields ++ added) := by
  intro front f behind hsplit hcompound
  rcases split_append hsplit with ⟨between, hfields, rfl⟩ | ⟨between, rfl, hbehind⟩
  · exact (h front f between hfields hcompound).append added
  · exact hadded between f behind hbehind hcompound

theorem OnBytes.append_simple (h : OnBytes table fields) {added : List Field}
    (hadded : ∀ f ∈ added, f.type.isCompound = false) : OnBytes table (fields ++ added) := by
  refine h.append fun between f behind hsplit hcompound => ?_
  have hsimple := hadded f (hsplit ▸ List.mem_append_right between List.mem_cons_self)
  rw [hsimple] at hcompound
  cases hcompound

/-- A field that starts on a byte boundary may be put behind others, with padding at its end. -/
theorem OnBytes.append_filled (h : OnBytes table fields) (hstart : extent table fields % 8 = 0)
    (field : Field) : OnBytes table (padded table (fields ++ [field])) := by
  rw [padded_eq, List.append_assoc]
  refine h.append fun between f behind hsplit hcompound => ?_
  cases between with
  | nil =>
    obtain ⟨rfl, rfl⟩ := List.cons.inj hsplit
    rw [List.append_nil]
    refine ⟨hstart, ?_⟩
    cases hfill : fill table (fields ++ [field]) with
    | none => exact Or.inl ((fill_eq_none_iff table _).mp hfill)
    | some p => exact Or.inr ⟨p, [], rfl, (width_of_fill hfill).1⟩
  | cons g between =>
    -- Behind the field there is only padding.
    have hpadding : (fill table (fields ++ [field])).toList.map Field.ofPadding =
        between ++ f :: behind := (List.cons.inj hsplit).2
    have hsimple := isCompound_ofPadding
      (hpadding ▸ List.mem_append_right between (List.mem_cons_self (a := f) (l := behind)))
    rw [hsimple] at hcompound
    cases hcompound

theorem OnBytes.placed (h : OnBytes table fields) (field : Field) :
    OnBytes table (BusSchema.placed table fields field) := by
  unfold BusSchema.placed
  split
  · have hpadded : OnBytes table (padded table fields) := by
      rw [padded_eq]
      exact h.append_simple fun f hf => isCompound_ofPadding hf
    exact hpadded.append_filled (extent_padded_mod table fields) field
  · next hcompound =>
    refine h.append_simple fun f hf => ?_
    rw [List.mem_singleton.mp hf]
    simpa using hcompound

theorem onBytes_place (table : TypeTable) (declared : List Field) :
    OnBytes table (place table declared) := by
  induction declared using List.reverseRecOn with
  | nil =>
    intro front f behind hsplit
    exact absurd hsplit.symm (by simp [place])
  | append_singleton declared f ih =>
    rw [place_concat]
    exact ih.placed f

end Boundaries

/-! ## Sections without added padding -/

section Unchanged

variable {table : TypeTable}

/-- A field is put behind others as it is exactly if it lies between byte boundaries then. -/
theorem placed_eq_concat_iff (fields : List Field) (f : Field) :
    placed table fields f = fields ++ [f] ↔
      (f.type.isCompound = true →
        extent table fields % 8 = 0 ∧ extent table (fields ++ [f]) % 8 = 0) := by
  unfold placed
  split
  · next hcompound =>
    rw [← padded_eq_self_iff, ← padded_eq_self_iff]
    constructor
    · intro h _
      have hbefore := isPrefix_padded table fields
      have hbehind := (isPrefix_padded table (padded table fields ++ [f])).length_le
      rw [h, List.length_append, List.length_append] at hbehind
      have hlength := Nat.le_antisymm hbefore.length_le (Nat.le_of_add_le_add_right hbehind)
      have hsame : fields = padded table fields := hbefore.eq_of_length hlength
      rw [← hsame] at h
      exact ⟨hsame.symm, h⟩
    · intro h
      obtain ⟨hbefore, hbehind⟩ := h hcompound
      rw [hbefore, hbehind]
  · next hcompound => exact iff_of_true rfl fun h => absurd h hcompound

theorem aligned_concat_iff {fields : List Field} {f : Field} :
    Aligned table (fields ++ [f]) ↔
      Aligned table fields ∧ (f.type.isCompound = true →
        extent table fields % 8 = 0 ∧ extent table (fields ++ [f]) % 8 = 0) := by
  constructor
  · intro h
    refine ⟨fun front g behind hsplit => h front g (behind ++ [f]) ?_, h fields f [] rfl⟩
    rw [hsplit, List.append_assoc]
    rfl
  · rintro ⟨hfields, hlast⟩ front g behind hsplit hcompound
    rcases split_append hsplit with ⟨between, hfront, -⟩ | ⟨between, rfl, hbehind⟩
    · exact hfields front g between hfront hcompound
    · cases between with
      | nil =>
        obtain ⟨rfl, -⟩ := List.cons.inj hbehind
        rw [List.append_nil]
        exact hlast hcompound
      | cons other between =>
        exact absurd (List.cons.inj hbehind).2 (by simp)

theorem place_eq_self_iff (declared : List Field) :
    place table declared = declared ↔ Aligned table declared := by
  induction declared using List.reverseRecOn with
  | nil =>
    refine iff_of_true rfl fun front f behind hsplit => ?_
    exact absurd hsplit (by simp)
  | append_singleton declared f ih =>
    rw [place_concat, aligned_concat_iff, ← ih, ← placed_eq_concat_iff]
    constructor
    · intro h
      obtain ⟨p, -, hplaced⟩ := placed_eq table (place table declared) f
      -- Neither the fields before nor the last one leave room for padding.
      have hlength := congrArg List.length (hplaced.symm.trans h)
      have hfew := (sublist_place table declared).length_le
      have hlast : 1 ≤ p.fields.length := by
        rw [p.perm_fields.length_eq]
        exact Nat.succ_le_of_lt (Nat.zero_lt_succ _)
      rw [List.length_append, List.length_append, List.length_singleton] at hlength
      have hsame : place table declared = declared :=
        (List.append_inj (hplaced.symm.trans h) (by omega)).1
      rw [hsame] at h
      exact ⟨hsame, h⟩
    · rintro ⟨hsame, hplaced⟩
      rw [hsame, hplaced]

end Unchanged

end BusSchema
