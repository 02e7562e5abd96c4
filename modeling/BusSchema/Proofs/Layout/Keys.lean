import BusSchema.Proofs.Layout.Paths
import Mathlib.Logic.Relation

/-!
# When two channels share a key

The names of attributes are different as they are written, but flattening makes further names from
them: those of the elements of arrays, and those of counts.  Two channels share a key exactly if the
name of a field is one of those that flattening makes from the name of another field, and the keys
go on in the same way (`Field.Clashes`).  So the keys of a layout are different if and only if no
section that it embeds has such a pair of fields (`TypeTable.disjointKeys_flatten_iff`).
-/

namespace BusSchema

/-! ## The first segment of a key -/

/-- What flattening puts behind the name of a field. -/
inductive Suffix
  | plain
  | index (i : Nat)
  | count

namespace Suffix

/-- The name of a field with the suffix. -/
def after (name : String) : Suffix → String
  | plain => name
  | index i => indexedName name i
  | count => name ++ "_count"

/-- The suffix without the underscore in front of it. -/
def tag : Suffix → String
  | plain => ""
  | index i => toString i
  | count => "count"

theorem toList_after {s : Suffix} (hs : s ≠ plain) (name : String) :
    (s.after name).toList = name.toList ++ '_' :: s.tag.toList := by
  cases s with
  | plain => exact absurd rfl hs
  | index i => simp [after, tag, indexedName]
  | count => simp [after, tag]

theorem notMem_tag {c : Char} (hdigit : c.isDigit = false) (hcount : c ∉ "count".toList)
    (s : Suffix) : c ∉ s.tag.toList := by
  cases s with
  | plain => exact List.not_mem_nil
  | count => exact hcount
  | index i =>
    intro h
    rw [isDigit_of_mem_toString h] at hdigit
    cases hdigit

theorem tag_inj {s t : Suffix} (hs : s ≠ plain) (ht : t ≠ plain) (h : s.tag = t.tag) : s = t := by
  have hcount : ∀ i : Nat, toString i ≠ "count" := by
    intro i h
    have hletter : 'c' ∈ (toString i).toList := by
      rw [h]
      decide
    exact absurd (isDigit_of_mem_toString hletter) (by decide)
  cases s with
  | plain => exact absurd rfl hs
  | index i =>
    cases t with
    | plain => exact absurd rfl ht
    | index j => exact congrArg index (Nat.repr_inj.mp h)
    | count => exact absurd h (hcount i)
  | count =>
    cases t with
    | plain => exact absurd rfl ht
    | index j => exact absurd h.symm (hcount j)
    | count => rfl

/-- The name and the suffix can be told from a name with a suffix. -/
theorem after_inj {s t : Suffix} (hs : s ≠ plain) (ht : t ≠ plain) {a b : String}
    (h : s.after a = t.after b) : a = b ∧ s = t := by
  have htext := congrArg String.toList h
  rw [toList_after hs, toList_after ht] at htext
  obtain ⟨hname, htag⟩ :=
    append_cons_inj_of_last (notMem_tag (by decide) (by decide) s)
      (notMem_tag (by decide) (by decide) t) htext
  exact ⟨String.toList_inj.mp hname, tag_inj hs ht (String.toList_inj.mp htag)⟩

theorem indexedName_inj {a b : String} {i j : Nat} (h : indexedName a i = indexedName b j) :
    a = b ∧ i = j := by
  have hafter : (index i).after a = (index j).after b := h
  obtain ⟨hname, hindex⟩ := after_inj (by simp) (by simp) hafter
  exact ⟨hname, index.inj hindex⟩

theorem after_ne {s : Suffix} (hs : s ≠ plain) (name : String) : s.after name ≠ name := by
  intro h
  have hlength := congrArg (fun text => (String.toList text).length) h
  simp [toList_after hs] at hlength

theorem isSegment_after {name : String} (hname : IsSegment name) (s : Suffix) :
    IsSegment (s.after name) := by
  by_cases hs : s = plain
  · rw [hs]
    exact hname
  have htext := toList_after hs name
  refine ⟨?_, ?_⟩
  · intro hempty
    rw [hempty] at htext
    simp at htext
  · rw [htext, List.mem_append, List.mem_cons]
    rintro (h | h | h)
    · exact hname.2 h
    · cases h
    · exact notMem_tag (by decide) (by decide) s h

end Suffix

/-! ## The keys of a field -/

/-- One of the channels has the key. -/
def Channel.AnyHasKey (channels : List Channel) (key : String) : Prop :=
  ∃ c ∈ channels, c.HasKey key

/-- No channel on one side has a key of a channel on the other. -/
def Channel.Apart (a b : List Channel) : Prop :=
  ∀ key, Channel.AnyHasKey a key → ¬Channel.AnyHasKey b key

/-- The key is one of the request section of a definition. -/
def TypeTable.HasKeyAt (table : TypeTable) (id : Nat) (key : String) : Prop :=
  ∃ d, table.definitions[id]? = some d ∧
    Channel.AnyHasKey (table.flatten d.request.fields "") key

/-- The keys of a field consist of its name, a suffix, and possibly a key of a compound type. -/
def FieldType.HasPart (table : TypeTable) : FieldType → Suffix → String → Prop
  | primitive _, suffix, rest => suffix = .plain ∧ rest = ""
  | padding _, _, _ => False
  | compound id, suffix, rest => suffix = .plain ∧ table.HasKeyAt id rest
  | array (primitive _) mode size, suffix, rest =>
    (∃ i, suffix = .index i ∧ (mode = .static → i < size)) ∧ rest = ""
  | array (compound id) mode size, suffix, rest =>
    (suffix = .count ∧ countWidth mode size ≠ 0 ∧ rest = "") ∨
      (∃ i < size, suffix = .index i) ∧ table.HasKeyAt id rest
  | array _ _ _, _, _ => False

/-- One field has the name of an element or of the count of another one, and a key in common. -/
def Field.Clashes (table : TypeTable) (f g : Field) : Prop :=
  ∃ suffix rest, suffix ≠ .plain ∧ f.name = suffix.after g.name ∧
    f.type.HasPart table .plain rest ∧ g.type.HasPart table suffix rest

namespace Channel

theorem anyHasKey_map_below_iff {channels : List Channel} (hnamed : ∀ c ∈ channels, c.Named)
    {path key : String} :
    AnyHasKey (channels.map fun c => c.below path) key ↔
      ∃ inner, AnyHasKey channels inner ∧ key = joinName path inner := by
  constructor
  · rintro ⟨_, hmem, hkey⟩
    obtain ⟨c, hc, rfl⟩ := List.mem_map.mp hmem
    obtain ⟨inner, hinner, rfl⟩ := (hasKey_below_iff (hnamed c hc)).mp hkey
    exact ⟨inner, ⟨c, hc, hinner⟩, rfl⟩
  · rintro ⟨inner, ⟨c, hc, hinner⟩, rfl⟩
    exact ⟨c.below path, List.mem_map_of_mem hc,
      (hasKey_below_iff (hnamed c hc)).mpr ⟨inner, hinner, rfl⟩⟩

theorem anyHasKey_append_iff {a b : List Channel} {key : String} :
    AnyHasKey (a ++ b) key ↔ AnyHasKey a key ∨ AnyHasKey b key := by
  simp [AnyHasKey, or_and_right, exists_or]

theorem Apart.symm {a b : List Channel} (h : Apart a b) : Apart b a :=
  fun key hb ha => h key ha hb

theorem apart_iff {a b : List Channel} :
    Apart a b ↔ ∀ c ∈ a, ∀ d ∈ b, ∀ key, c.HasKey key → ¬d.HasKey key := by
  constructor
  · intro h c hc d hd key hckey hdkey
    exact h key ⟨c, hc, hckey⟩ ⟨d, hd, hdkey⟩
  · rintro h key ⟨c, hc, hckey⟩ ⟨d, hd, hdkey⟩
    exact h c hc d hd key hckey hdkey

theorem disjointKeys_append_iff {a b : List Channel} :
    DisjointKeys (a ++ b) ↔ DisjointKeys a ∧ DisjointKeys b ∧ Apart a b := by
  rw [apart_iff]
  exact List.pairwise_append

theorem disjointKeys_flatMap_iff {ι : Type} {items : List ι} {channels : ι → List Channel} :
    DisjointKeys (items.flatMap channels) ↔
      (∀ i ∈ items, DisjointKeys (channels i)) ∧
        items.Pairwise fun i j => Apart (channels i) (channels j) := by
  simp only [apart_iff]
  exact List.pairwise_flatMap

theorem hasKey_scalar_iff {p : Primitive} {name key : String} :
    (scalar p.kind p.width name).HasKey key ↔ key = name := by
  rw [HasKey, isVoid_scalar]
  simp [isDynamic, scalar]

theorem hasKey_dynamicArray_iff {p : Primitive} {name key : String} {capacity : Nat} :
    (dynamicArray p.kind p.width name capacity).HasKey key ↔ ∃ i, key = indexedName name i := by
  rw [HasKey, isVoid_dynamicArray]
  simp [isDynamic, dynamicArray, elementName, indexedName]

theorem anyHasKey_elementChannels_iff {channels : List Channel} (hnamed : ∀ c ∈ channels, c.Named)
    {path key : String} {count : Nat} :
    AnyHasKey (elementChannels channels path count) key ↔
      ∃ i < count, ∃ inner,
        AnyHasKey channels inner ∧ key = joinName (indexedName path i) inner := by
  unfold elementChannels
  split
  · next hempty =>
    have hnone : ∀ inner, ¬AnyHasKey channels inner := by
      rintro inner ⟨c, hc, -⟩
      rw [List.isEmpty_iff.mp hempty] at hc
      cases hc
    constructor
    · rintro ⟨c, hc, -⟩
      cases hc
    · rintro ⟨i, -, inner, hinner, -⟩
      exact (hnone inner hinner).elim
  · have hmember : AnyHasKey ((List.range count).flatMap fun i =>
          channels.map fun c => c.below (indexedName path i)) key ↔
        ∃ i < count, AnyHasKey (channels.map fun c => c.below (indexedName path i)) key := by
      simp only [AnyHasKey, List.mem_flatMap, List.mem_range]
      constructor
      · rintro ⟨c, ⟨i, hi, hc⟩, hkey⟩
        exact ⟨i, hi, c, hc, hkey⟩
      · rintro ⟨i, hi, c, hc, hkey⟩
        exact ⟨c, ⟨i, hi, hc⟩, hkey⟩
    rw [hmember]
    simp only [anyHasKey_map_below_iff hnamed]

theorem anyHasKey_singleton_iff {c : Channel} {key : String} :
    AnyHasKey [c] key ↔ c.HasKey key := by
  simp [AnyHasKey]

theorem disjointKeys_elementChannels_iff {channels : List Channel}
    (hnamed : ∀ c ∈ channels, c.Named) {path : String} (hpath : IsSegment path) {count : Nat}
    (hcount : 1 ≤ count) :
    DisjointKeys (elementChannels channels path count) ↔
      DisjointKeys channels := by
  unfold elementChannels
  split
  · next hempty =>
    rw [List.isEmpty_iff.mp hempty]
  · have helement : ∀ i, DisjointKeys
        (channels.map fun c => c.below (indexedName path i)) ↔ DisjointKeys channels :=
      fun i => disjointKeys_map_below_iff hnamed (indexedName path i)
    have hapart : (List.range count).Pairwise fun i j =>
        Apart (channels.map fun c => c.below (indexedName path i))
          (channels.map fun c => c.below (indexedName path j)) := by
      refine List.pairwise_lt_range.imp ?_
      intro i j hlt key hi hj
      obtain ⟨inner, -, hinner⟩ := (anyHasKey_map_below_iff hnamed).mp hi
      obtain ⟨other, -, hother⟩ := (anyHasKey_map_below_iff hnamed).mp hj
      have hsegment := Suffix.isSegment_after hpath
      have hindex : indexedName path i = indexedName path j :=
        ((joinName_inj (hsegment (.index i)) (hsegment (.index j))).mp (hinner ▸ hother)).1
      exact Nat.ne_of_lt hlt (Suffix.indexedName_inj hindex).2
    rw [disjointKeys_flatMap_iff]
    constructor
    · intro h
      exact (helement 0).mp (h.1 0 (List.mem_range.mpr hcount))
    · intro h
      exact ⟨fun i _ => (helement i).mpr h, hapart⟩

theorem disjointKeys_countChannels (width : Nat) (path : String) :
    DisjointKeys (countChannels width path) := by
  unfold countChannels
  split
  · exact List.Pairwise.nil
  · exact List.pairwise_singleton _ _

theorem anyHasKey_countChannels_iff {width : Nat} {path key : String} :
    AnyHasKey (countChannels width path) key ↔ width ≠ 0 ∧ key = path ++ "_count" := by
  unfold countChannels
  split
  · next hzero => simp [AnyHasKey, hzero]
  · next hwidth => simp [AnyHasKey, HasKey, scalar, isVoid, isDynamic, hwidth]

/-- The key of a count goes on with no point, so it is not one of an element. -/
theorem apart_countChannels {channels : List Channel} (hnamed : ∀ c ∈ channels, c.Named) {path : String}
    (hpath : IsSegment path) (width count : Nat) :
    Apart (countChannels width path) (elementChannels channels path count) := by
  intro key hcount helement
  obtain ⟨-, rfl⟩ := anyHasKey_countChannels_iff.mp hcount
  obtain ⟨i, -, inner, -, hkey⟩ := (anyHasKey_elementChannels_iff hnamed).mp helement
  have hsegment := Suffix.isSegment_after hpath
  have hjoined : joinName (Suffix.count.after path) "" =
      joinName ((Suffix.index i).after path) inner := by
    rw [joinName_empty_right]
    exact hkey
  have hfirst := ((joinName_inj (hsegment .count) (hsegment (.index i))).mp hjoined).1
  cases (Suffix.after_inj (by simp) (by simp) hfirst).2

theorem disjointKeys_scalars (p : Primitive) (path : String) (count : Nat) :
    DisjointKeys ((List.range count).map fun i => scalar p.kind p.width (indexedName path i)) := by
  unfold DisjointKeys
  rw [List.pairwise_map]
  refine List.pairwise_lt_range.imp ?_
  intro i j hlt key hi hj
  rw [hasKey_scalar_iff] at hi hj
  exact Nat.ne_of_lt hlt (Suffix.indexedName_inj (hi.symm.trans hj)).2

end Channel

namespace TypeTable

variable {table : TypeTable}

theorem hasKeyAt_iff {id : Nat} {d : Definition} (hd : table.definitions[id]? = some d)
    {key : String} :
    table.HasKeyAt id key ↔ Channel.AnyHasKey (table.flatten d.request.fields "") key := by
  simp [HasKeyAt, hd]

theorem hasPart_named {f : Field} (hnamed : f.Named) {suffix : Suffix} {rest : String}
    (h : f.type.HasPart table suffix rest) : Statement.IsName f.name := by
  obtain ⟨name, type⟩ := f
  unfold Field.Named at hnamed
  cases type with
  | padding p => exact h.elim
  | primitive p => exact hnamed
  | compound id => exact hnamed
  | array element mode size => exact hnamed

/-- Two fields of different names have a key in common only if one of them clashes. -/
theorem clashes_of_hasPart {f g : Field} (hf : f.Named) (hg : g.Named) (hne : f.name ≠ g.name)
    {s t : Suffix} {r u : String} (hfpart : f.type.HasPart table s r)
    (hgpart : g.type.HasPart table t u)
    (h : joinName (s.after f.name) r = joinName (t.after g.name) u) :
    f.Clashes table g ∨ g.Clashes table f := by
  have hfname := Suffix.isSegment_after (hasPart_named hf hfpart).isSegment s
  have hgname := Suffix.isSegment_after (hasPart_named hg hgpart).isSegment t
  obtain ⟨hfirst, rfl⟩ := (joinName_inj hfname hgname).mp h
  by_cases hs : s = .plain
  · rw [hs] at hfirst hfpart
    by_cases ht : t = .plain
    · rw [ht] at hfirst
      exact absurd hfirst hne
    · exact Or.inl ⟨t, r, ht, hfirst, hfpart, hgpart⟩
  · by_cases ht : t = .plain
    · rw [ht] at hfirst hgpart
      exact Or.inr ⟨s, r, hs, hfirst.symm, hgpart, hfpart⟩
    · exact absurd (Suffix.after_inj hs ht hfirst).1 hne

theorem pairwise_names {s : Section} (hs : s.Valid table) :
    s.fields.Pairwise fun f g => f.name = g.name → f.name = "" := by
  have hnames := List.pairwise_filter.mp hs.distinct
  have hfields := List.pairwise_map.mp (List.pairwise_append.mp hnames).1
  refine hfields.imp ?_
  intro f g h hsame
  by_contra hname
  exact h (by simpa using hname) (by simpa [← hsame] using hname) hsame

/-- The channels of one section contain those of another one, as the request of a compound type. -/
def Embeds (table : TypeTable) (s t : Section) : Prop :=
  ∃ f ∈ s.fields, ∃ id ∈ f.type.references, ∃ d,
    table.definitions[id]? = some d ∧ t = d.request

/-- No two fields of a section clash, nor of any section that it embeds. -/
def ClashFree (table : TypeTable) (s : Section) : Prop :=
  ∀ t, Relation.ReflTransGen table.Embeds s t → ∀ f ∈ t.fields, ∀ g ∈ t.fields,
    ¬f.Clashes table g

theorem ClashFree.of_embeds {s t : Section} (h : table.ClashFree s) (hst : table.Embeds s t) :
    table.ClashFree t :=
  fun u hreach => h u (hreach.head hst)

variable (htable : table.Built)

include htable

/-- The definition behind a valid compound type gives its template. -/
theorem Built.compound {id : Nat} (h : (FieldType.compound id).Valid table) :
    ∃ d, table.definitions[id]? = some d ∧
      table.templates[id]? = some (table.flatten d.request.fields) ∧
      Template.IsUniform (table.flatten d.request.fields) := by
  obtain ⟨d, hd, -⟩ := h
  have hvalid := htable.valid (List.mem_of_getElem? hd) d.request List.mem_cons_self
  exact ⟨d, hd, table.template hd, htable.isUniform_flatten hvalid⟩

/-- The keys of a field are those that its parts make. -/
theorem Built.anyHasKey_iff {f : Field} (hvalid : f.type.Valid table) {key : String} :
    Channel.AnyHasKey (f.type.flattenWith table.templates f.name) key ↔
      ∃ suffix rest, f.type.HasPart table suffix rest ∧
        key = joinName (suffix.after f.name) rest := by
  obtain ⟨name, type⟩ := f
  cases type, hvalid using FieldType.Valid.elim with
  | padding p =>
    simp [Channel.AnyHasKey, FieldType.flattenWith, FieldType.HasPart, Channel.HasKey,
      Channel.padding, Channel.isVoid]
  | primitive p =>
    simp [FieldType.flattenWith, FieldType.HasPart, Channel.anyHasKey_singleton_iff,
      Channel.hasKey_scalar_iff, Suffix.after, joinName_empty_right]
  | compound id hvalid =>
    obtain ⟨d, hd, htemplate, huniform⟩ := htable.compound hvalid
    rw [FieldType.flattenWith_compound htemplate, huniform.moves,
      Channel.anyHasKey_map_below_iff huniform.named]
    simp [FieldType.HasPart, hasKeyAt_iff hd, Suffix.after]
  | primitives p mode size =>
    cases mode with
    | dynamic =>
      simp [FieldType.flattenWith, FieldType.HasPart, Channel.anyHasKey_singleton_iff,
        Channel.hasKey_dynamicArray_iff, Suffix.after, joinName_empty_right]
    | static =>
      simp [FieldType.flattenWith, FieldType.HasPart, Channel.AnyHasKey,
        Channel.hasKey_scalar_iff, Suffix.after, joinName_empty_right]
  | compounds id mode size hvalid =>
    obtain ⟨d, hd, htemplate, huniform⟩ := htable.compound hvalid.2.1
    rw [FieldType.flattenWith_compounds htemplate, Channel.anyHasKey_append_iff,
      Channel.anyHasKey_countChannels_iff, Channel.anyHasKey_elementChannels_iff huniform.named]
    simp only [FieldType.HasPart, hasKeyAt_iff hd]
    constructor
    · rintro (⟨hwidth, rfl⟩ | ⟨i, hi, inner, hinner, rfl⟩)
      · exact ⟨.count, "", Or.inl ⟨rfl, hwidth, rfl⟩, (joinName_empty_right _).symm⟩
      · exact ⟨.index i, inner, Or.inr ⟨⟨i, hi, rfl⟩, hinner⟩, rfl⟩
    · rintro ⟨suffix, rest, ⟨rfl, hwidth, rfl⟩ | ⟨⟨i, hi, rfl⟩, hrest⟩, rfl⟩
      · exact Or.inl ⟨hwidth, joinName_empty_right _⟩
      · exact Or.inr ⟨i, hi, rest, hrest, rfl⟩

/-! ## The channels of one field -/

/-- The channels of a field share a key only if those of its compound type do. -/
theorem Built.disjointKeys_flattenWith_iff {f : Field} (hvalid : f.type.Valid table)
    (hnamed : f.Named) :
    Channel.DisjointKeys (f.type.flattenWith table.templates f.name) ↔
      ∀ id ∈ f.type.references, ∀ d, table.definitions[id]? = some d →
        Channel.DisjointKeys (table.flatten d.request.fields "") := by
  obtain ⟨name, type⟩ := f
  unfold Field.Named at hnamed
  cases type, hvalid using FieldType.Valid.elim with
  | padding p => simp [Channel.DisjointKeys, FieldType.flattenWith, FieldType.references]
  | primitive p => simp [Channel.DisjointKeys, FieldType.flattenWith, FieldType.references]
  | compound id hvalid =>
    obtain ⟨d, hd, htemplate, huniform⟩ := htable.compound hvalid
    rw [FieldType.flattenWith_compound htemplate, huniform.moves,
      Channel.disjointKeys_map_below_iff huniform.named]
    simp [FieldType.references, hd]
  | primitives p mode size =>
    have hchannels : Channel.DisjointKeys
        ((FieldType.array (.primitive p) mode size).flattenWith table.templates name) := by
      cases mode with
      | dynamic => exact List.pairwise_singleton _ _
      | static => exact Channel.disjointKeys_scalars p name size
    refine iff_of_true hchannels ?_
    intro id hid
    cases hid
  | compounds id mode size hvalid =>
    have hname : IsSegment name := hnamed.isSegment
    obtain ⟨d, hd, htemplate, huniform⟩ := htable.compound hvalid.2.1
    have hcount := Channel.disjointKeys_countChannels (countWidth mode size) name
    have hapart := Channel.apart_countChannels huniform.named hname (countWidth mode size) size
    rw [FieldType.flattenWith_compounds htemplate, Channel.disjointKeys_append_iff,
      Channel.disjointKeys_elementChannels_iff huniform.named hname hvalid.2.2.1]
    simp [hcount, hapart, FieldType.references, hd]

/-! ## The channels of a section -/

theorem Built.not_clashes {f g : Field} (hf : f.type.Valid table) (hg : g.type.Valid table)
    (hapart : Channel.Apart (f.type.flattenWith table.templates f.name)
      (g.type.flattenWith table.templates g.name)) : ¬f.Clashes table g := by
  rintro ⟨suffix, rest, -, hname, hfpart, hgpart⟩
  refine hapart (joinName f.name rest) ((htable.anyHasKey_iff hf).mpr ⟨.plain, rest, hfpart, rfl⟩)
    ((htable.anyHasKey_iff hg).mpr ⟨suffix, rest, hgpart, ?_⟩)
  rw [hname]

/-- Two fields of a section that do not clash have no key in common. -/
theorem Built.apart_of_not_clashes {f g : Field} (hf : f.type.Valid table)
    (hg : g.type.Valid table) (hfnamed : f.Named) (hgnamed : g.Named)
    (hnames : f.name = g.name → f.name = "") (hfg : ¬f.Clashes table g)
    (hgf : ¬g.Clashes table f) :
    Channel.Apart (f.type.flattenWith table.templates f.name)
      (g.type.flattenWith table.templates g.name) := by
  intro key hfkey hgkey
  obtain ⟨s, r, hfpart, hfkey⟩ := (htable.anyHasKey_iff hf).mp hfkey
  obtain ⟨t, u, hgpart, hgkey⟩ := (htable.anyHasKey_iff hg).mp hgkey
  have hne : f.name ≠ g.name := fun h => (hasPart_named hfnamed hfpart).ne_empty (hnames h)
  rcases clashes_of_hasPart hfnamed hgnamed hne hfpart hgpart
    (hfkey.symm.trans hgkey) with hclash | hclash
  · exact hfg hclash
  · exact hgf hclash

/-- Without clashes, the channels of a section share a key only if those of a compound type do. -/
theorem Built.disjointKeys_section_iff {s : Section} (hs : s.Valid table) :
    Channel.DisjointKeys (table.flatten s.fields "") ↔
      (∀ f ∈ s.fields, ∀ g ∈ s.fields, ¬f.Clashes table g) ∧
        ∀ f ∈ s.fields, ∀ id ∈ f.type.references, ∀ d, table.definitions[id]? = some d →
          Channel.DisjointKeys (table.flatten d.request.fields "") := by
  let channels (f : Field) : List Channel := f.type.flattenWith table.templates f.name
  have hinside : (∀ f ∈ s.fields, Channel.DisjointKeys (channels f)) ↔
      ∀ f ∈ s.fields, ∀ id ∈ f.type.references, ∀ d, table.definitions[id]? = some d →
        Channel.DisjointKeys (table.flatten d.request.fields "") :=
    forall₂_congr fun f hf => htable.disjointKeys_flattenWith_iff (hs.types f hf) (hs.named f hf)
  have hbetween : (s.fields.Pairwise fun f g => Channel.Apart (channels f) (channels g)) ↔
      ∀ f ∈ s.fields, ∀ g ∈ s.fields, ¬f.Clashes table g := by
    constructor
    · intro hapart f hf g hg hclash
      have : Std.Symm fun f g => Channel.Apart (channels f) (channels g) :=
        ⟨fun f g h => h.symm⟩
      have hne : f ≠ g := by
        rintro rfl
        obtain ⟨suffix, rest, hsuffix, hname, -⟩ := hclash
        exact Suffix.after_ne hsuffix f.name hname.symm
      exact htable.not_clashes (hs.types f hf) (hs.types g hg) (hapart.forall hf hg hne) hclash
    · intro hfree
      refine (pairwise_names hs).imp_of_mem ?_
      intro f g hf hg hnames
      exact htable.apart_of_not_clashes (hs.types f hf) (hs.types g hg) (hs.named f hf)
        (hs.named g hg) hnames (hfree f hf g hg) (hfree g hg f hf)
  exact Channel.disjointKeys_flatMap_iff.trans
    ((and_congr hinside hbetween).trans and_comm)

theorem Built.valid_of_embeds {s t : Section} (hst : table.Embeds s t) : t.Valid table := by
  obtain ⟨f, -, id, -, d, hd, rfl⟩ := hst
  exact htable.valid (List.mem_of_getElem? hd) d.request List.mem_cons_self

theorem Built.clashFree_of_disjointKeys {s : Section} (hs : s.Valid table)
    (h : Channel.DisjointKeys (table.flatten s.fields "")) : table.ClashFree s := by
  have hreached : ∀ t, Relation.ReflTransGen table.Embeds s t →
      t.Valid table ∧ Channel.DisjointKeys (table.flatten t.fields "") := by
    intro t hreach
    induction hreach with
    | refl => exact ⟨hs, h⟩
    | tail _ hstep ih =>
      have hvalid := htable.valid_of_embeds hstep
      obtain ⟨f, hf, id, hid, d, hd, rfl⟩ := hstep
      exact ⟨hvalid, ((htable.disjointKeys_section_iff ih.1).mp ih.2).2 f hf id hid d hd⟩
  intro t hreach
  obtain ⟨hvalid, hdisjoint⟩ := hreached t hreach
  exact ((htable.disjointKeys_section_iff hvalid).mp hdisjoint).1

theorem Built.disjointKeys_of_clashFree {s : Section} (hs : s.Valid table)
    (hfree : table.ClashFree s) : Channel.DisjointKeys (table.flatten s.fields "") := by
  have hwell := htable.wellFormed
  -- References lead to earlier definitions, so the requests are taken in the order of the table.
  have hrequests : ∀ (i : Nat) (d : Definition), table.definitions[i]? = some d →
      table.ClashFree d.request → Channel.DisjointKeys (table.flatten d.request.fields "") := by
    intro i
    induction i using Nat.strongRecOn with
    | _ i ih =>
      intro d hd hfree
      have hrequest : d.request ∈ d.sections := List.mem_cons_self
      have hvalid := htable.valid (List.mem_of_getElem? hd) d.request hrequest
      refine (htable.disjointKeys_section_iff hvalid).mpr ⟨hfree _ .refl, ?_⟩
      intro f hf id hid e he
      exact ih id (hwell.references i d hd d.request hrequest f hf id hid).1 e he
        (hfree.of_embeds ⟨f, hf, id, hid, e, he, rfl⟩)
  refine (htable.disjointKeys_section_iff hs).mpr ⟨hfree s .refl, ?_⟩
  intro f hf id hid d hd
  exact hrequests id d hd (hfree.of_embeds ⟨f, hf, id, hid, d, hd, rfl⟩)

/-- No two channels of a section share a key if and only if no fields clash in what it embeds. -/
theorem Built.disjointKeys_flatten_iff {s : Section} (hs : s.Valid table) (parent : String) :
    Channel.DisjointKeys (table.flatten s.fields parent) ↔ table.ClashFree s := by
  have huniform := htable.isUniform_flatten hs
  rw [huniform.moves parent, Channel.disjointKeys_map_below_iff huniform.named parent]
  exact ⟨htable.clashFree_of_disjointKeys hs, htable.disjointKeys_of_clashFree hs⟩

end TypeTable

end BusSchema
