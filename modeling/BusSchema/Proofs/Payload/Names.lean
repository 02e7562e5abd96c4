import BusSchema.Transfer.Payload
import Mathlib.Data.List.Nodup
import Mathlib.Data.List.Perm.Subperm
import Std.Data.String.ToNat

/-!
# Values and their names

`Channel.named` gives the values of a channel the names that they are read under, and
`Bindings.bindAll` binds such pairs one after the other.  The elements of an array that are bound
are those up to the first index without a value (`boundElements_eq_iff`), however many other
bindings there are, and a channel looks up no name behind these (`Channel.valuesIn_eq_of_looksUp`).
-/

namespace BusSchema

namespace Bindings

variable {α : Type}

/-- The bindings with all pairs of a list bound, in order. -/
def bindAll (bindings : Bindings α) (pairs : List (String × α)) : Bindings α :=
  pairs.foldl (fun bindings pair => bindings.bind pair.1 pair.2) bindings

@[simp]
theorem bindAll_nil (bindings : Bindings α) : bindings.bindAll [] = bindings := rfl

theorem bindAll_append (bindings : Bindings α) (front back : List (String × α)) :
    bindings.bindAll (front ++ back) = (bindings.bindAll front).bindAll back :=
  List.foldl_append

theorem get?_bindAll_of_ne {pairs : List (String × α)} {name : String}
    (h : ∀ pair ∈ pairs, pair.1 ≠ name) (bindings : Bindings α) :
    (bindings.bindAll pairs).get? name = bindings.get? name := by
  induction pairs generalizing bindings with
  | nil => rfl
  | cons pair rest ih =>
    have hne : pair.1 ≠ name := h pair List.mem_cons_self
    have hrest := ih (fun p hp => h p (List.mem_cons_of_mem _ hp)) (bindings.bind pair.1 pair.2)
    rw [get?_bind, if_neg hne] at hrest
    exact hrest

/-- Pairs that all come from other bindings give a part of those. -/
theorem get?_bindAll_of_get? {pairs : List (String × α)} {values : Bindings α}
    (h : ∀ pair ∈ pairs, values.get? pair.1 = some pair.2) (bindings : Bindings α)
    (name : String) :
    (bindings.bindAll pairs).get? name =
      if name ∈ pairs.map Prod.fst then values.get? name else bindings.get? name := by
  induction pairs generalizing bindings with
  | nil => simp
  | cons pair rest ih =>
    have hpair := h pair List.mem_cons_self
    have hrest := ih (fun p hp => h p (List.mem_cons_of_mem _ hp)) (bindings.bind pair.1 pair.2)
    rw [get?_bind] at hrest
    refine hrest.trans ?_
    by_cases hmem : name ∈ rest.map Prod.fst
    · simp [hmem]
    · by_cases hname : pair.1 = name
      · simp [hname, ← hpair]
      · simp [hmem, hname, Ne.symm hname]

/-- Of pairs with different names, each one is found. -/
theorem get?_bindAll_of_mem {pairs : List (String × α)} (hnodup : (pairs.map Prod.fst).Nodup)
    {name : String} {value : α} (h : (name, value) ∈ pairs) (bindings : Bindings α) :
    (bindings.bindAll pairs).get? name = some value := by
  obtain ⟨front, back, rfl⟩ := List.append_of_mem h
  have hback : ∀ pair ∈ back, pair.1 ≠ name := by
    rw [List.map_append, List.map_cons] at hnodup
    have hcons := (List.nodup_cons.mp (List.Nodup.of_append_right hnodup)).1
    intro pair hpair hname
    exact hcons (List.mem_map.mpr ⟨pair, hpair, hname⟩)
  rw [bindAll_append]
  refine (get?_bindAll_of_ne hback ((bindings.bindAll front).bind name value)).trans ?_
  rw [get?_bind, if_pos rfl]

theorem mem_names_of_get? {bindings : Bindings α} {name : String} {value : α}
    (h : bindings.get? name = some value) : name ∈ bindings.entries.map Prod.fst := by
  obtain ⟨entry, hfind, -⟩ := Option.map_eq_some_iff.mp h
  have hname : entry.1 = name := by simpa using List.find?_some hfind
  rw [← hname]
  exact List.mem_map_of_mem (List.mem_of_find?_eq_some hfind)

/-- There are no more names than bindings. -/
theorem length_le_of_get? {bindings : Bindings α} {names : List String} (hnodup : names.Nodup)
    (h : ∀ name ∈ names, ∃ value, bindings.get? name = some value) :
    names.length ≤ bindings.entries.length := by
  have hsubset : names ⊆ bindings.entries.map Prod.fst := by
    intro name hname
    obtain ⟨value, hvalue⟩ := h name hname
    exact mem_names_of_get? hvalue
  simpa using (List.subperm_of_subset hnodup hsubset).length_le

end Bindings

namespace Channel

theorem elementName_inj {c : Channel} {i j : Nat} :
    c.elementName i = c.elementName j ↔ i = j := by
  rw [elementName, elementName, String.append_right_inj]
  exact Nat.repr_inj

/-- An element has a longer name than its array. -/
theorem length_lt_elementName (c : Channel) (index : Nat) :
    c.name.length < (c.elementName index).length := by
  have hbar : "_".length = 1 := by decide
  rw [elementName, String.length_append, String.length_append, hbar]
  omega

/-- The values of a channel with the names that they are read under. -/
def named (c : Channel) (values : List Double) : List (String × Double) :=
  if c.isVoid then []
  else if c.isDynamic then values.mapIdx fun i value => (c.elementName i, value)
  else values.map fun value => (c.name, value)

/-- The values that a channel takes from values by name. -/
def valuesIn (c : Channel) (values : NamedValues) : List Double :=
  if c.isVoid then []
  else if c.isDynamic then Payload.boundElements c values
  else (values.get? c.name).toList

end Channel

namespace Payload

theorem get?_of_boundFrom (c : Channel) (values : NamedValues) (most index : Nat) {i : Nat}
    {value : Double} (h : (boundFrom c values most index)[i]? = some value) :
    values.get? (c.elementName (index + i)) = some value := by
  induction most generalizing index i with
  | zero => simp [boundFrom] at h
  | succ most ih =>
    rw [boundFrom] at h
    split at h
    · simp at h
    · next first hfirst =>
      cases i with
      | zero =>
        simp only [List.getElem?_cons_zero, Option.some.injEq] at h
        rw [Nat.add_zero, hfirst, h]
      | succ i =>
        rw [List.getElem?_cons_succ] at h
        rw [← ih (index + 1) h]
        congr 2
        omega

theorem boundFrom_stops (c : Channel) (values : NamedValues) (most index : Nat) :
    (boundFrom c values most index).length = most ∨
      values.get? (c.elementName (index + (boundFrom c values most index).length)) = none := by
  induction most generalizing index with
  | zero => exact Or.inl rfl
  | succ most ih =>
    rw [boundFrom]
    split
    · next hnone => exact Or.inr hnone
    · next first hfirst =>
      rcases ih (index + 1) with hlength | hnone
      · exact Or.inl (by rw [List.length_cons, hlength])
      · refine Or.inr ?_
        rw [List.length_cons, ← hnone]
        congr 2
        omega

theorem get?_of_boundElements {c : Channel} {values : NamedValues} {i : Nat} {value : Double}
    (h : (boundElements c values)[i]? = some value) :
    values.get? (c.elementName i) = some value := by
  have hget := get?_of_boundFrom c values _ 0 h
  rwa [Nat.zero_add] at hget

/-- No element is left out: the index behind the bound elements has no value. -/
theorem get?_behind_boundElements (c : Channel) (values : NamedValues) :
    values.get? (c.elementName (boundElements c values).length) = none := by
  rcases boundFrom_stops c values values.entries.length 0 with hlength | hnone
  · -- As many elements as bindings: one more bound name would be one name too many.
    by_contra hbound
    obtain ⟨extra, hextra⟩ := Option.ne_none_iff_exists'.mp hbound
    have hlength : (boundElements c values).length = values.entries.length := hlength
    have hnodup : ((List.range (values.entries.length + 1)).map c.elementName).Nodup :=
      List.Nodup.map (fun i j hij => Channel.elementName_inj.mp hij) List.nodup_range
    have hall : ∀ name ∈ (List.range (values.entries.length + 1)).map c.elementName,
        ∃ value, values.get? name = some value := by
      intro name hname
      obtain ⟨i, hi, rfl⟩ := List.mem_map.mp hname
      have hi : i ≤ (boundElements c values).length := by
        rw [hlength]
        exact Nat.le_of_lt_succ (List.mem_range.mp hi)
      rcases Nat.lt_or_eq_of_le hi with hlt | rfl
      · exact ⟨_, get?_of_boundElements (List.getElem?_eq_getElem hlt)⟩
      · exact ⟨extra, hextra⟩
    have hle := Bindings.length_le_of_get? hnodup hall
    rw [List.length_map, List.length_range] at hle
    omega
  · rwa [Nat.zero_add] at hnone

/-- The bound elements of an array are those up to the first index without a value. -/
theorem boundElements_eq_iff {c : Channel} {values : NamedValues} {elements : List Double} :
    boundElements c values = elements ↔
      (∀ i, ∀ h : i < elements.length, values.get? (c.elementName i) = some elements[i]) ∧
        values.get? (c.elementName elements.length) = none := by
  constructor
  · rintro rfl
    refine ⟨fun i h => ?_, get?_behind_boundElements c values⟩
    exact get?_of_boundElements (List.getElem?_eq_getElem h)
  · rintro ⟨hbound, hbehind⟩
    have hget : ∀ {i : Nat} (h : i < (boundElements c values).length),
        values.get? (c.elementName i) = some (boundElements c values)[i] := fun h =>
      get?_of_boundElements (List.getElem?_eq_getElem h)
    have hlength : (boundElements c values).length = elements.length := by
      rcases Nat.lt_trichotomy (boundElements c values).length elements.length with h | h | h
      · have hnone := get?_behind_boundElements c values
        rw [hbound _ h] at hnone
        cases hnone
      · exact h
      · rw [hget h] at hbehind
        cases hbehind
    apply List.ext_getElem hlength
    intro i hi hi'
    exact Option.some.inj ((hget hi).symm.trans (hbound i hi'))

end Payload

theorem Channel.get?_of_mem_named {c : Channel} {values : NamedValues} {pair : String × Double}
    (h : pair ∈ c.named (c.valuesIn values)) : values.get? pair.1 = some pair.2 := by
  unfold named valuesIn at h
  cases hvoid : c.isVoid with
  | true => simp [hvoid] at h
  | false =>
    cases hdynamic : c.isDynamic with
    | true =>
      simp only [hvoid, hdynamic, Bool.false_eq_true, if_false, if_true] at h
      obtain ⟨index, hindex, rfl⟩ := List.mem_mapIdx.mp h
      exact Payload.get?_of_boundElements (List.getElem?_eq_getElem hindex)
    | false =>
      simp only [hvoid, hdynamic, Bool.false_eq_true, if_false] at h
      obtain ⟨value, hvalue, rfl⟩ := List.mem_map.mp h
      exact Option.mem_toList.mp hvalue

/-! ## The names that are looked up -/

namespace Channel

/-- The values have so many elements of the array in a row. -/
structure IsRun (c : Channel) (values : NamedValues) (count : Nat) : Prop where
  bound : ∀ index < count, (values.get? (c.elementName index)).isSome
  stops : values.get? (c.elementName count) = none

/-- The channel looks for a value of this name: an array only as far as its elements go. -/
def LooksUp (c : Channel) (values : NamedValues) (key : String) : Prop :=
  c.isVoid = false ∧
    if c.isDynamic then ∃ count, c.IsRun values count ∧ ∃ index ≤ count, key = c.elementName index
    else key = c.name

theorem isRun_iff {c : Channel} {values : NamedValues} {count : Nat} :
    c.IsRun values count ↔ (Payload.boundElements c values).length = count := by
  constructor
  · rintro ⟨hbound, hstops⟩
    rcases Nat.lt_trichotomy (Payload.boundElements c values).length count with hlt | heq | hgt
    · have hsome := hbound _ hlt
      rw [Payload.get?_behind_boundElements] at hsome
      cases hsome
    · exact heq
    · rw [Payload.get?_of_boundElements (List.getElem?_eq_getElem hgt)] at hstops
      cases hstops
  · rintro rfl
    refine ⟨fun index hindex => ?_, Payload.get?_behind_boundElements c values⟩
    rw [Payload.get?_of_boundElements (List.getElem?_eq_getElem hindex)]
    rfl

theorem isRun_length (c : Channel) (values : NamedValues) :
    c.IsRun values (Payload.boundElements c values).length :=
  isRun_iff.mpr rfl

/-- A channel looks up the same names, and finds the same, where those have the same values. -/
theorem valuesIn_eq_of_looksUp {c : Channel} {values other : NamedValues}
    (h : ∀ key, c.LooksUp values key → other.get? key = values.get? key) :
    c.valuesIn other = c.valuesIn values := by
  unfold LooksUp at h
  unfold valuesIn
  cases hvoid : c.isVoid with
  | true => rfl
  | false =>
    cases hdynamic : c.isDynamic with
    | false => simp [h c.name ⟨hvoid, by simp [hdynamic]⟩]
    | true =>
      have hkey : ∀ index ≤ (Payload.boundElements c values).length,
          other.get? (c.elementName index) = values.get? (c.elementName index) := by
        intro index hindex
        refine h _ ⟨hvoid, ?_⟩
        rw [if_pos hdynamic]
        exact ⟨_, c.isRun_length values, index, hindex, rfl⟩
      simp only [Bool.false_eq_true, if_false, if_true]
      rw [Payload.boundElements_eq_iff]
      refine ⟨fun index hindex => ?_, ?_⟩
      · rw [hkey index (Nat.le_of_lt hindex)]
        exact Payload.get?_of_boundElements (List.getElem?_eq_getElem hindex)
      · rw [hkey _ (Nat.le_refl _)]
        exact Payload.get?_behind_boundElements c values

end Channel

end BusSchema
