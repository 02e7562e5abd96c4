import BusSchema.Proofs.Layout.Capacity
import BusSchema.Proofs.Payload.Canonical
import BusSchema.Proofs.Schema.WellFormed
import BusSchema.Proofs.Text.Numeral
import Mathlib.Data.List.Pairwise

/-!
# Paths of channels

A path starts with a name that holds no point, and this name and the rest of the path can be told
from the path (`joinName_inj`).  The channels below a parent are the channels without one, with the
path to the parent put in front of their names (`TypeTable.Built.isUniform_flatten`), so whether two
channels share a key does not depend on the parent (`Channel.disjointKeys_map_below_iff`).
-/

namespace BusSchema

/-! ## Texts -/

theorem append_cons_inj_of_first {α : Type} {c : α} {a b r s : List α} (ha : c ∉ a) (hb : c ∉ b)
    (h : a ++ c :: r = b ++ c :: s) : a = b ∧ r = s := by
  induction a generalizing b with
  | nil =>
    cases b with
    | nil => exact ⟨rfl, List.tail_eq_of_cons_eq h⟩
    | cons d b =>
      obtain ⟨rfl, -⟩ := List.cons.inj h
      exact absurd List.mem_cons_self hb
  | cons d a ih =>
    cases b with
    | nil =>
      obtain ⟨rfl, -⟩ := List.cons.inj h
      exact absurd List.mem_cons_self ha
    | cons e b =>
      obtain ⟨rfl, htail⟩ := List.cons.inj h
      obtain ⟨rfl, rfl⟩ :=
        ih (fun hc => ha (List.mem_cons_of_mem _ hc)) (fun hc => hb (List.mem_cons_of_mem _ hc))
          htail
      exact ⟨rfl, rfl⟩

theorem append_cons_inj_of_last {α : Type} {c : α} {a b r s : List α} (hr : c ∉ r) (hs : c ∉ s)
    (h : a ++ c :: r = b ++ c :: s) : a = b ∧ r = s := by
  have hreversed : r.reverse ++ c :: a.reverse = s.reverse ++ c :: b.reverse := by
    simpa using congrArg List.reverse h
  obtain ⟨hrest, hfront⟩ := append_cons_inj_of_first (by simpa using hr) (by simpa using hs)
    hreversed
  exact ⟨List.reverse_injective hfront, List.reverse_injective hrest⟩

/-! ## Joined names -/

theorem joinName_empty_left (name : String) : joinName "" name = name := rfl

theorem joinName_empty_right (parent : String) : joinName parent "" = parent := by
  unfold joinName
  split
  · next h => exact h.symm
  · rfl

theorem joinName_of_ne {parent name : String} (hparent : parent ≠ "") (hname : name ≠ "") :
    joinName parent name = parent ++ "." ++ name := by
  rw [joinName, if_neg hparent, if_neg hname]

theorem joinName_ne_empty {parent name : String} (hname : name ≠ "") :
    joinName parent name ≠ "" := by
  by_cases hparent : parent = ""
  · rwa [hparent, joinName_empty_left]
  · rw [joinName_of_ne hparent hname]
    intro h
    exact hname (String.append_eq_empty_iff.mp h).2

theorem joinName_assoc (a b c : String) : joinName (joinName a b) c = joinName a (joinName b c) := by
  by_cases ha : a = ""
  · rw [ha, joinName_empty_left, joinName_empty_left]
  by_cases hb : b = ""
  · rw [hb, joinName_empty_right, joinName_empty_left]
  by_cases hc : c = ""
  · rw [hc, joinName_empty_right, joinName_empty_right]
  rw [joinName_of_ne (joinName_ne_empty hb) hc, joinName_of_ne ha (joinName_ne_empty hc),
    joinName_of_ne ha hb, joinName_of_ne hb hc]
  simp only [String.append_assoc]

/-- What is put behind the last name of a path is put behind the path. -/
theorem joinName_append {name : String} (hname : name ≠ "") (parent text : String) :
    joinName parent name ++ text = joinName parent (name ++ text) := by
  by_cases hparent : parent = ""
  · rw [hparent, joinName_empty_left, joinName_empty_left]
  · have happend : name ++ text ≠ "" := fun h => hname (String.append_eq_empty_iff.mp h).1
    rw [joinName_of_ne hparent hname, joinName_of_ne hparent happend, String.append_assoc]

theorem indexedName_joinName {name : String} (hname : name ≠ "") (parent : String) (i : Nat) :
    indexedName (joinName parent name) i = joinName parent (indexedName name i) := by
  have hbar : name ++ "_" ≠ "" := fun h => hname (String.append_eq_empty_iff.mp h).1
  rw [indexedName, joinName_append hname, joinName_append hbar]
  rfl

theorem indexedName_ne_empty {name : String} (hname : name ≠ "") (i : Nat) :
    indexedName name i ≠ "" := by
  intro h
  exact hname (String.append_eq_empty_iff.mp (String.append_eq_empty_iff.mp h).1).1

/-- What a step of a path adds to the text before it. -/
def stepText (name : String) : List Char := if name = "" then [] else '.' :: name.toList

theorem toList_joinName {parent : String} (hparent : parent ≠ "") (name : String) :
    (joinName parent name).toList = parent.toList ++ stepText name := by
  unfold stepText
  by_cases hname : name = ""
  · rw [if_pos hname, hname, joinName_empty_right, List.append_nil]
  · rw [if_neg hname, joinName_of_ne hparent hname, String.toList_append, String.toList_append,
      List.append_assoc]
    rfl

theorem stepText_inj {a b : String} : stepText a = stepText b ↔ a = b := by
  refine ⟨fun h => ?_, fun h => by rw [h]⟩
  unfold stepText at h
  split at h
  · next ha =>
    split at h
    · next hb => rw [ha, hb]
    · cases h
  · split at h
    · cases h
    · exact String.toList_inj.mp (List.tail_eq_of_cons_eq h)

theorem joinName_right_inj {parent a b : String} :
    joinName parent a = joinName parent b ↔ a = b := by
  refine ⟨fun h => ?_, fun h => by rw [h]⟩
  by_cases hparent : parent = ""
  · rwa [hparent, joinName_empty_left, joinName_empty_left] at h
  · have htext := congrArg String.toList h
    rw [toList_joinName hparent, toList_joinName hparent, List.append_right_inj] at htext
    exact stepText_inj.mp htext

/-- The text is not empty and holds no point. -/
def IsSegment (text : String) : Prop := text ≠ "" ∧ '.' ∉ text.toList

/-- A path falls into its first segment and the rest in one way only. -/
theorem joinName_inj {a b r s : String} (ha : IsSegment a) (hb : IsSegment b) :
    joinName a r = joinName b s ↔ a = b ∧ r = s := by
  constructor
  · intro h
    -- With one more point at the end, the first point stands behind the first segment.
    have hstep : ∀ name, ∃ tail, stepText name ++ ['.'] = '.' :: tail := by
      intro name
      unfold stepText
      split
      · exact ⟨[], rfl⟩
      · exact ⟨name.toList ++ ['.'], rfl⟩
    obtain ⟨u, hu⟩ := hstep r
    obtain ⟨v, hv⟩ := hstep s
    have htext := congrArg (fun text => String.toList text ++ ['.']) h
    simp only [toList_joinName ha.1, toList_joinName hb.1, List.append_assoc, hu, hv] at htext
    have hfirst := String.toList_inj.mp (append_cons_inj_of_first ha.2 hb.2 htext).1
    rw [hfirst] at h
    exact ⟨hfirst, joinName_right_inj.mp h⟩
  · rintro ⟨rfl, rfl⟩
    rfl

theorem Statement.IsName.isSegment {name : String} (h : Statement.IsName name) :
    IsSegment name := by
  refine ⟨h.ne_empty, ?_⟩
  intro hpoint
  have hword := h.2 '.' hpoint
  revert hword
  decide

/-! ## Channels below a path -/

namespace Channel

theorem below_below (c : Channel) (inner outer : String) :
    (c.below inner).below outer = c.below (joinName outer inner) := by
  have hvoid : (c.below inner).isVoid = c.isVoid := rfl
  unfold below at hvoid ⊢
  rw [hvoid]
  cases c.isVoid with
  | true => rfl
  | false => simp [joinName_assoc]

theorem map_below_below (channels : List Channel) (inner outer : String) :
    (channels.map fun c => c.below inner).map (fun c => c.below outer) =
      channels.map fun c => c.below (joinName outer inner) := by
  rw [List.map_map]
  exact List.map_congr_left fun c _ => c.below_below inner outer

theorem below_eq {c : Channel} (hvoid : c.isVoid = false) (path : String) :
    c.below path = { c with name := joinName path c.name } := by
  simp [below, hvoid]

theorem isVoid_scalar (p : Primitive) (name : String) :
    (scalar p.kind p.width name).isVoid = false := by
  simp [isVoid, scalar, p.kind_ne_void]

theorem isVoid_dynamicArray (p : Primitive) (name : String) (capacity : Nat) :
    (dynamicArray p.kind p.width name capacity).isVoid = false := by
  simp [isVoid, dynamicArray, p.kind_ne_void]

/-- The channel has a name unless it is padding. -/
def Named (c : Channel) : Prop := c.isVoid = false → c.name ≠ ""

theorem name_below {c : Channel} (hvoid : c.isVoid = false) (path : String) :
    (c.below path).name = joinName path c.name := by
  rw [below_eq hvoid]

theorem Named.below {c : Channel} (h : c.Named) (path : String) : (c.below path).Named := by
  intro hvoid
  have hvoid : c.isVoid = false := hvoid
  rw [name_below hvoid]
  exact joinName_ne_empty (h hvoid)

theorem elementName_below {c : Channel} (hname : c.Named) (hvoid : c.isVoid = false)
    (path : String) (index : Nat) :
    (c.below path).elementName index = joinName path (c.elementName index) := by
  rw [elementName, name_below hvoid]
  exact indexedName_joinName (hname hvoid) path index

/-- The keys of a channel below a path are those of the channel, below that path. -/
theorem hasKey_below_iff {c : Channel} (hname : c.Named) {path key : String} :
    (c.below path).HasKey key ↔ ∃ inner, c.HasKey inner ∧ key = joinName path inner := by
  have hsameVoid : (c.below path).isVoid = c.isVoid := rfl
  have hsameDynamic : (c.below path).isDynamic = c.isDynamic := rfl
  unfold HasKey
  rw [hsameVoid, hsameDynamic]
  cases hvoid : c.isVoid with
  | true => simp
  | false =>
    cases hdynamic : c.isDynamic with
    | false => simp [name_below hvoid]
    | true => simp [elementName_below hname hvoid]

/-- No channel gains or loses a common key with another one when both move below a path. -/
theorem disjointKeys_map_below_iff {channels : List Channel} (hnamed : ∀ c ∈ channels, c.Named)
    (path : String) :
    DisjointKeys (channels.map fun c => c.below path) ↔ DisjointKeys channels := by
  unfold DisjointKeys
  rw [List.pairwise_map]
  apply List.Pairwise.iff_of_mem
  intro c d hc hd
  constructor
  · intro h key hckey hdkey
    exact h (joinName path key) ((hasKey_below_iff (hnamed c hc)).mpr ⟨key, hckey, rfl⟩)
      ((hasKey_below_iff (hnamed d hd)).mpr ⟨key, hdkey, rfl⟩)
  · intro h key hckey hdkey
    obtain ⟨inner, hinner, rfl⟩ := (hasKey_below_iff (hnamed c hc)).mp hckey
    obtain ⟨other, hother, hjoin⟩ := (hasKey_below_iff (hnamed d hd)).mp hdkey
    rw [joinName_right_inj] at hjoin
    rw [← hjoin] at hother
    exact h inner hinner hother

end Channel

/-! ## Templates -/

/-- The channels at a path are the channels of the template, below that path. -/
structure Template.IsUniform (template : Template) : Prop where
  moves : ∀ path, template path = (template "").map fun c => c.below path
  named : ∀ c ∈ template "", c.Named

namespace FieldType

variable {compounds : List Template} {id : Nat} {template : Template}
  (htemplate : compounds[id]? = some template)

include htemplate

theorem flattenWith_compound (path : String) :
    (compound id).flattenWith compounds path = template path := by
  rw [flattenWith, htemplate]
  rfl

theorem flattenWith_compounds (mode : ArrayMode) (size : Nat) (path : String) :
    (array (compound id) mode size).flattenWith compounds path =
      countChannels (countWidth mode size) path ++ elementChannels (template "") path size := by
  rw [flattenWith, htemplate]
  rfl

end FieldType

theorem countChannels_moves (width : Nat) {path : String} (hpath : path ≠ "") (parent : String) :
    countChannels width (joinName parent path) =
      (countChannels width path).map fun c => c.below parent := by
  unfold countChannels
  rw [joinName_append hpath]
  split
  · rfl
  · rfl

theorem elementChannels_moves (channels : List Channel) {path : String} (hpath : path ≠ "")
    (count : Nat) (parent : String) :
    elementChannels channels (joinName parent path) count =
      (elementChannels channels path count).map fun c => c.below parent := by
  unfold elementChannels
  split
  · rfl
  · rw [List.map_flatMap]
    apply List.flatMap_congr
    intro i _
    rw [Channel.map_below_below, indexedName_joinName hpath]

section Uniform

variable {compounds : List Template} (hcompounds : ∀ template ∈ compounds, template.IsUniform)

include hcompounds

/-- What a compound type contributes to the channels at a path. -/
theorem compound_moves (id : Nat) (path : String) :
    ((compounds[id]?).map fun template => template path).getD [] =
      (((compounds[id]?).map fun template => template "").getD []).map fun c => c.below path := by
  cases hid : compounds[id]? with
  | none => rfl
  | some template => exact (hcompounds template (List.mem_of_getElem? hid)).moves path

theorem compound_named (id : Nat) :
    ∀ c ∈ ((compounds[id]?).map fun template => template "").getD [], c.Named := by
  intro c hc
  cases hid : compounds[id]? with
  | none => simp [hid] at hc
  | some template =>
    rw [hid] at hc
    exact (hcompounds template (List.mem_of_getElem? hid)).named c hc

theorem flattenWith_moves {f : Field} (hf : f.Named) (parent : String) :
    f.type.flattenWith compounds (joinName parent f.name) =
      (f.type.flattenWith compounds f.name).map fun c => c.below parent := by
  obtain ⟨name, type⟩ := f
  unfold Field.Named at hf
  cases type with
  | padding p => rfl
  | primitive p =>
    exact congrArg (· :: []) (Channel.below_eq (Channel.isVoid_scalar p name) parent).symm
  | compound id =>
    simp only [FieldType.flattenWith]
    rw [compound_moves hcompounds id, compound_moves hcompounds id name, Channel.map_below_below]
  | array element mode size =>
    have hname : name ≠ "" := hf.ne_empty
    cases element with
    | padding p => rfl
    | array inner innerMode innerSize => rfl
    | primitive p =>
      cases mode with
      | dynamic =>
        exact congrArg (· :: [])
          (Channel.below_eq (Channel.isVoid_dynamicArray p name size) parent).symm
      | static =>
        simp only [FieldType.flattenWith, List.map_map]
        apply List.map_congr_left
        intro i _
        rw [indexedName_joinName hname]
        exact (Channel.below_eq (Channel.isVoid_scalar p (indexedName name i)) parent).symm
    | compound id =>
      have hcount := countChannels_moves (countWidth mode size) hname parent
      have helements := elementChannels_moves
        (((compounds[id]?).map fun template => template "").getD []) hname size parent
      exact (congrArg₂ (· ++ ·) hcount helements).trans List.map_append.symm

theorem flattenWith_named {f : Field} (hf : f.Named) :
    ∀ c ∈ f.type.flattenWith compounds f.name, c.Named := by
  obtain ⟨name, type⟩ := f
  unfold Field.Named at hf
  intro c hc
  cases type with
  | padding p =>
    intro hvoid
    rw [List.mem_singleton.mp hc] at hvoid
    cases hvoid
  | primitive p =>
    rw [List.mem_singleton.mp hc]
    exact fun _ => hf.ne_empty
  | compound id =>
    simp only [FieldType.flattenWith] at hc
    rw [compound_moves hcompounds id] at hc
    obtain ⟨inner, hinner, rfl⟩ := List.mem_map.mp hc
    exact (compound_named hcompounds id inner hinner).below name
  | array element mode size =>
    have hname : name ≠ "" := hf.ne_empty
    cases element with
    | padding p => cases hc
    | array inner innerMode innerSize => cases hc
    | primitive p =>
      cases mode with
      | dynamic =>
        rw [List.mem_singleton.mp hc]
        exact fun _ => hname
      | static =>
        obtain ⟨i, -, rfl⟩ := List.mem_map.mp hc
        exact fun _ => indexedName_ne_empty hname i
    | compound id =>
      rcases List.mem_append.mp hc with hc | hc
      · rw [mem_countChannels hc]
        exact fun _ h => hname (String.append_eq_empty_iff.mp h).1
      · obtain ⟨i, inner, hinner, rfl⟩ := mem_elementChannels hc
        exact (compound_named hcompounds id inner hinner).below _

theorem isUniform_flattenFields {fields : List Field} (hfields : ∀ f ∈ fields, f.Named) :
    Template.IsUniform (flattenFields compounds fields) := by
  have hstart : flattenFields compounds fields "" =
      fields.flatMap fun f => f.type.flattenWith compounds f.name := rfl
  refine ⟨?_, ?_⟩
  · intro parent
    rw [hstart, List.map_flatMap]
    apply List.flatMap_congr
    intro f hf
    exact flattenWith_moves hcompounds (hfields f hf) parent
  · intro c hc
    rw [hstart] at hc
    obtain ⟨f, hf, hc⟩ := List.mem_flatMap.mp hc
    exact flattenWith_named hcompounds (hfields f hf) c hc

end Uniform

/-! ## Tables -/

namespace TypeTable

theorem templates_eq_rowsOf (table : TypeTable) :
    table.templates =
      rowsOf (fun compounds d => flattenFields compounds d.request.fields) table.definitions := rfl

theorem length_templates (table : TypeTable) : table.templates.length = table.size :=
  length_rowsOf table.definitions

theorem templates_push {table : TypeTable} {d : Definition} (h : table.Accepts d) :
    (table.push d h).2.templates = table.templates ++ [table.flatten d.request.fields] := by
  rw [templates_eq_rowsOf, definitions_push, rowsOf_concat]
  rfl

theorem Grows.template {a b : TypeTable} (hab : a.Grows b) {i : Nat} (hi : i < a.size) :
    b.templates[i]? = a.templates[i]? := by
  rw [← length_templates] at hi
  exact getElem?_of_isPrefix (rowsOf_mono hab) hi

end TypeTable

section Congruence

variable {compounds others : List Template}

/-- Only the templates of the compound types in a type are looked up. -/
theorem FieldType.flattenWith_congr {type : FieldType}
    (h : ∀ id ∈ type.references, others[id]? = compounds[id]?) (path : String) :
    type.flattenWith others path = type.flattenWith compounds path := by
  cases type with
  | padding p => rfl
  | primitive p => rfl
  | compound id =>
    simp only [FieldType.flattenWith]
    rw [h id (List.mem_singleton_self id)]
  | array element mode size =>
    cases element with
    | padding p => rfl
    | primitive p => cases mode <;> rfl
    | compound id =>
      simp only [FieldType.flattenWith]
      rw [h id (List.mem_singleton_self id)]
    | array _ _ _ => rfl

theorem flattenFields_congr {fields : List Field}
    (h : ∀ f ∈ fields, ∀ id ∈ f.type.references, others[id]? = compounds[id]?) :
    flattenFields others fields = flattenFields compounds fields := by
  funext parent
  exact List.flatMap_congr fun f hf => FieldType.flattenWith_congr (h f hf) _

end Congruence

namespace TypeTable

/--
The template of a definition gives the channels of its request section, wherever in the table the
definitions stand that these refer to.
-/
theorem template (table : TypeTable) {i : Nat} {d : Definition}
    (hd : table.definitions[i]? = some d) :
    table.templates[i]? = some (table.flatten d.request.fields) := by
  rw [templates_eq_rowsOf, getElem?_rowsOf hd, ← templates_eq_rowsOf]
  refine congrArg some (flattenFields_congr fun f hf id hid => ?_)
  have hlt := table.backward i d hd id (Definition.mem_references List.mem_cons_self hf hid)
  exact List.getElem?_take_of_lt hlt

/--
Flattening follows a reference to the definition that it leads to, which is in the table: its
channels stand below the path of the field, or below the path of each element of an array.
-/
theorem flattenWith_reference (table : TypeTable) {i : Nat} {d : Definition}
    (hd : table.definitions[i]? = some d) {id : Nat} (hid : id ∈ d.references) :
    ∃ target, table.definitions[id]? = some target ∧
      (∀ path, (FieldType.compound id).flattenWith table.templates path =
        table.flatten target.request.fields path) ∧
      ∀ mode size path,
        (FieldType.array (.compound id) mode size).flattenWith table.templates path =
          countChannels (countWidth mode size) path ++
            elementChannels (table.flatten target.request.fields "") path size := by
  obtain ⟨target, htarget⟩ := table.exists_of_mem_references hd hid
  have htemplate := table.template htarget
  exact ⟨target, htarget, FieldType.flattenWith_compound htemplate,
    FieldType.flattenWith_compounds htemplate⟩

variable {table : TypeTable} (htable : table.Built)

include htable

theorem Built.isUniform_templates : ∀ template ∈ table.templates, template.IsUniform := by
  induction htable with
  | empty =>
    intro template htemplate
    cases htemplate
  | @push table next htable hnext hnew ih =>
    intro template htemplate
    rw [templates_push, List.mem_append, List.mem_singleton] at htemplate
    rcases htemplate with htemplate | rfl
    · exact ih template htemplate
    · exact isUniform_flattenFields ih (hnext next.request List.mem_cons_self).named

/-- The channels of a valid section below a parent have names that are paths below it. -/
theorem Built.isUniform_flatten {s : Section} (hs : s.Valid table) :
    Template.IsUniform (table.flatten s.fields) :=
  isUniform_flattenFields htable.isUniform_templates hs.named

end TypeTable

end BusSchema
