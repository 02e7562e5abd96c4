import BusSchema.Proofs.Schema.References
import BusSchema.Proofs.Text.Numeral

/-!
# The names that references denote

A single segment is a name in the namespace of the file, and several segments are a full name; two
numbers behind the name ask for a version (`Reference.Denotes`).  Segments of names start with a
letter or an underscore, so they are not taken for numbers, and a reference is read as the name and
the version that it denotes (`Reference.fullName_of_denotes`).
-/

namespace BusSchema

namespace Text

theorem join_split (text : String) : join "." (split '.' text) = text := by
  have hpieces : (split '.' text).map String.toList = text.toList.splitOn '.' := by
    rw [split, List.map_map, pieces_eq_splitOn]
    exact (List.map_congr_left fun s _ => String.toList_ofList).trans (List.map_id _)
  have hlist : (join "." (split '.' text)).toList = text.toList := by
    have htext : (join "." (split '.' text)).toList =
        ['.'].intercalate ((split '.' text).map String.toList) := String.toList_intercalate
    rw [htext, hpieces, List.intercalate_splitOn]
  exact String.toList_inj.mp hlist

end Text

namespace Reference

/-- The segment starts with a letter or an underscore. -/
def Lettered (segment : String) : Prop :=
  ∃ c ∈ segment.toList.head?, Statement.isWordStart c = true

/-- The words behind a name ask for no version, or are the two numbers of one. -/
inductive VersionWords : List String → Option Version → Prop
  | unversioned : VersionWords [] none
  | versioned {major minor : String} : Numeral.IsDigits 10 major.toList →
      Numeral.IsDigits 10 minor.toList →
      VersionWords [major, minor]
        (some ⟨Numeral.value 10 major.toList, Numeral.value 10 minor.toList⟩)

/-- What is written in a file of the namespace denotes a full name, with or without a version. -/
inductive Denotes (nameSpace written : String) : String → Option Version → Prop
  /-- A single segment is a name in the namespace of the file. -/
  | unqualified {segment : String} {words : List String} {version : Option Version} :
      Text.split '.' written = segment :: words → Lettered segment →
      VersionWords words version → Denotes nameSpace written (qualify nameSpace segment) version
  /-- Several segments are the namespace and the name. -/
  | qualified {front words : List String} {last : String} {version : Option Version} :
      Text.split '.' written = front ++ last :: words → front ≠ [] →
      (∀ segment ∈ front ++ [last], Lettered segment) → VersionWords words version →
      Denotes nameSpace written (Text.join "." (front ++ [last])) version

/-- The numbers of the version have 32 bits, as those of all files. -/
def Asks32 (version : Option Version) : Prop :=
  ∀ v ∈ version, v.major < twoPow 32 ∧ v.minor < twoPow 32

variable {nameSpace written segment last major minor : String} {front words : List String}
  {version : Option Version} {a b : Nat}

/-! ## Segments and numbers -/

theorem Lettered.ne_empty (h : Lettered segment) : segment ≠ "" := by
  rintro rfl
  obtain ⟨c, hc, -⟩ := h
  cases hc

theorem isDigit_of_isWordStart {c : Char} (h : Statement.isWordStart c = true) :
    c.isDigit = false := by
  rw [Bool.eq_false_iff]
  intro hdigit
  have hupper : c.toNat ≤ 57 := by
    rw [Char.isDigit, Bool.and_eq_true, decide_eq_true_eq, decide_eq_true_eq] at hdigit
    exact hdigit.2
  have hlower := (Statement.toNat_of_isWordStart h).1
  omega

theorem Lettered.read32?_eq_none (h : Lettered segment) : Numeral.read32? segment = none := by
  obtain ⟨c, hc, hstart⟩ := h
  refine Numeral.read32?_eq_none hc ?_ (isDigit_of_isWordStart hstart)
  rintro rfl
  exact absurd hstart (by decide)

theorem ofReversed?_unversioned (h : Numeral.read32? last = none) :
    ofReversed? (front ++ [last]).reverse = some ⟨front, last, none⟩ := by
  rw [List.reverse_append, List.reverse_singleton, List.singleton_append]
  rcases hfront : front.reverse with _ | ⟨x, _ | ⟨y, rest⟩⟩
  · rw [List.reverse_eq_nil_iff.mp hfront]
    rfl
  · rw [List.reverse_eq_iff.mp hfront]
    rfl
  · rw [List.reverse_eq_iff.mp hfront, ofReversed?, h]

/-! ## Names in namespaces -/

/-- The segments of a namespace, of which there are none at the root. -/
def segmentsOf (nameSpace : String) : List String :=
  if nameSpace = "" then [] else Text.split '.' nameSpace

theorem join_segmentsOf (nameSpace : String) :
    Text.join "." (segmentsOf nameSpace) = nameSpace := by
  unfold segmentsOf
  split
  · next hempty => exact hempty.symm
  · exact Text.join_split nameSpace

/-- The segments that a reference inherits from the namespace of its file. -/
def inherited (nameSpace written : String) : List String :=
  if isLocal written then segmentsOf nameSpace else []

theorem split_qualified (nameSpace written : String) :
    Text.split '.' (if isLocal written then qualify nameSpace written else written) =
      inherited nameSpace written ++ Text.split '.' written := by
  unfold inherited
  split
  · unfold qualify segmentsOf
    split
    · rfl
    · exact Text.split_append_point nameSpace written
  · rfl

/-- A reference whose last segment is no number asks for no version. -/
theorem read?_unversioned (hsplit : Text.split '.' written = front ++ [last])
    (hlast : Numeral.read32? last = none) :
    read? nameSpace written = some ⟨inherited nameSpace written ++ front, last, none⟩ := by
  unfold read?
  dsimp only
  rw [split_qualified, hsplit, ← List.append_assoc]
  exact ofReversed?_unversioned hlast

theorem read?_versioned (hsplit : Text.split '.' written = front ++ [last, major, minor])
    (hminor : Numeral.read32? minor = some b) :
    read? nameSpace written = (Numeral.read32? major).map fun a =>
      ⟨inherited nameSpace written ++ front, last, some ⟨a, b⟩⟩ := by
  unfold read?
  dsimp only
  rw [split_qualified, hsplit, ← List.append_assoc, List.reverse_append]
  simp [ofReversed?, hminor]

/-- One segment inherits the namespace of the file, also if a version follows. -/
theorem inherited_of_single (hsplit : Text.split '.' written = segment :: words)
    (hwords : words = [] ∨
      ∃ major minor b, words = [major, minor] ∧ Numeral.read32? minor = some b) :
    inherited nameSpace written = segmentsOf nameSpace := by
  have hlocal : isLocal written = true := by
    unfold isLocal
    rcases hwords with rfl | ⟨major, minor, b, rfl, hminor⟩
    · rw [hsplit]
    · rw [hsplit]
      exact Option.isSome_iff_exists.mpr ⟨b, hminor⟩
  exact if_pos hlocal

/-- Several segments inherit nothing. -/
theorem inherited_of_several (hsplit : Text.split '.' written = front ++ last :: words)
    (hfront : front ≠ [])
    (hwords : words = [] ∧ Numeral.read32? last = none ∨ ∃ major minor, words = [major, minor]) :
    inherited nameSpace written = [] := by
  have hlocal : isLocal written = false := by
    obtain ⟨first, others, rfl⟩ := List.exists_cons_of_ne_nil hfront
    unfold isLocal
    rw [hsplit]
    rcases hwords with ⟨rfl, hlast⟩ | ⟨major, minor, rfl⟩
    · rcases others with _ | ⟨second, _ | ⟨third, rest⟩⟩
      · rfl
      · simp [hlast]
      · simp
    · rcases others with _ | ⟨second, _ | ⟨third, _ | ⟨fourth, rest⟩⟩⟩ <;> rfl
  unfold inherited
  rw [hlocal]
  rfl

/-! ## Names that are denoted -/

theorem not_lettered_of_isDigits {word : String} (h : Numeral.IsDigits 10 word.toList) :
    ¬Lettered word := by
  rintro ⟨c, hc, hstart⟩
  have hdigit := Numeral.isDigit_of_digitOf?_ten (h.2 c (List.mem_of_mem_head? hc))
  rw [isDigit_of_isWordStart hstart] at hdigit
  cases hdigit

/-- The last segment that is read is a segment of the name. -/
theorem name_mem_split_fullName {reference : Reference}
    (hread : read? nameSpace written = some reference) :
    reference.name ∈ Text.split '.' reference.fullName := by
  rw [fullName, nameSpaceText, split_qualify (notMem_of_read? hread)]
  split
  · exact List.mem_singleton_self _
  · exact List.mem_append_right _ (List.mem_singleton_self _)

/--
Two numbers behind a name are read as the version.  A number of more bits than versions of files
have is read as the last segment of a name instead.
-/
theorem versioned_of_read? {reference : Reference}
    (hsplit : Text.split '.' written = front ++ [last, major, minor])
    (hmajor : Numeral.IsDigits 10 major.toList) (hminor : Numeral.IsDigits 10 minor.toList)
    (hversion : version =
      some ⟨Numeral.value 10 major.toList, Numeral.value 10 minor.toList⟩)
    (hread : read? nameSpace written = some reference)
    (hasks : Asks32 version ∨
      ∀ segment ∈ Text.split '.' reference.fullName, Lettered segment) :
    (∃ b, Numeral.read32? minor = some b) ∧
      reference = ⟨inherited nameSpace written ++ front, last, version⟩ := by
  cases hnumber : Numeral.read32? minor with
  | none =>
    have hsegments : Text.split '.' written = (front ++ [last, major]) ++ [minor] := by
      rw [hsplit, List.append_assoc]
      rfl
    have hlast : reference.name = minor := by
      rw [read?_unversioned hsegments hnumber] at hread
      cases hread
      rfl
    rcases hasks with hasks | hlettered
    · have hsmall := (Numeral.read32?_eq_some_iff hminor).mpr ⟨rfl, (hasks _ hversion).2⟩
      rw [hnumber] at hsmall
      cases hsmall
    · exact absurd (hlettered _ (name_mem_split_fullName hread))
        (hlast ▸ not_lettered_of_isDigits hminor)
  | some b =>
    rw [read?_versioned hsplit hnumber] at hread
    obtain ⟨a, ha, rfl⟩ := Option.map_eq_some_iff.mp hread
    obtain ⟨rfl, -⟩ := (Numeral.read32?_eq_some_iff hmajor).mp ha
    obtain ⟨rfl, -⟩ := (Numeral.read32?_eq_some_iff hminor).mp hnumber
    exact ⟨⟨_, rfl⟩, by rw [hversion]⟩

theorem fullName_segmentsOf (nameSpace name : String) (version : Option Version) :
    fullName ⟨segmentsOf nameSpace ++ [], name, version⟩ = qualify nameSpace name := by
  rw [fullName, nameSpaceText, List.append_nil, join_segmentsOf]

theorem fullName_of_lettered (hsplit : Text.split '.' written = front ++ last :: words)
    (hfront : front ≠ []) (hlettered : ∀ segment ∈ front ++ [last], Lettered segment)
    (version : Option Version) :
    fullName ⟨[] ++ front, last, version⟩ = Text.join "." (front ++ [last]) := by
  have hpoints : ∀ s ∈ front, '.' ∉ s.toList := fun s hs =>
    Text.notMem_of_mem_split (hsplit ▸ List.mem_append_left _ hs)
  have hjoin : Text.join "." front ≠ "" := by
    intro hempty
    rcases eq_nil_or_singleton_of_join_eq_empty hpoints hempty with rfl | rfl
    · exact hfront rfl
    · exact (hlettered "" (by simp)).ne_empty rfl
  rw [fullName, nameSpaceText, List.nil_append, qualify, if_neg hjoin, Text.join_concat hfront]

/--
A reference is read as the name and the version that it denotes.  Only if it asks for a version
that no file has, because of a number with more bits, it may be read as another name, and then a
segment of that name is a number.
-/
theorem fullName_of_denotes {name : String} {reference : Reference}
    (h : Denotes nameSpace written name version) (hread : read? nameSpace written = some reference)
    (hasks : Asks32 version ∨
      ∀ segment ∈ Text.split '.' reference.fullName, Lettered segment) :
    reference.fullName = name ∧ reference.version = version := by
  cases h with
  | @unqualified segment words _ hsplit hlettered hwords =>
    have hfront : Text.split '.' written = [] ++ segment :: words := hsplit
    cases hwords with
    | unversioned =>
      rw [read?_unversioned hfront hlettered.read32?_eq_none,
        inherited_of_single hsplit (.inl rfl)] at hread
      cases hread
      exact ⟨fullName_segmentsOf _ _ _, rfl⟩
    | versioned hmajor hminor =>
      obtain ⟨⟨b, hb⟩, rfl⟩ := versioned_of_read? hfront hmajor hminor rfl hread hasks
      rw [inherited_of_single hsplit (.inr ⟨_, _, b, rfl, hb⟩)]
      exact ⟨fullName_segmentsOf _ _ _, rfl⟩
  | @qualified front words last _ hsplit hfront hlettered hwords =>
    have hlast : Lettered last := hlettered last (by simp)
    cases hwords with
    | unversioned =>
      rw [read?_unversioned hsplit hlast.read32?_eq_none,
        inherited_of_several hsplit hfront (.inl ⟨rfl, hlast.read32?_eq_none⟩)] at hread
      cases hread
      exact ⟨fullName_of_lettered hsplit hfront hlettered _, rfl⟩
    | versioned hmajor hminor =>
      obtain ⟨-, rfl⟩ := versioned_of_read? hsplit hmajor hminor rfl hread hasks
      rw [inherited_of_several hsplit hfront (.inr ⟨_, _, rfl⟩)]
      exact ⟨fullName_of_lettered hsplit hfront hlettered _, rfl⟩

/-- What denotes a name has no empty segments. -/
theorem regular_of_denotes {name : String} (h : Denotes nameSpace written name version) :
    Regular written := by
  have hwords : ∀ {words}, VersionWords words version → "" ∉ words := by
    intro words hwords hempty
    cases hwords with
    | unversioned => cases hempty
    | versioned hmajor hminor =>
      rcases List.mem_pair.mp hempty with rfl | rfl
      · exact hmajor.1 rfl
      · exact hminor.1 rfl
  intro hempty
  cases h with
  | unqualified hsplit hlettered hversion =>
    rw [hsplit] at hempty
    rcases List.mem_cons.mp hempty with hsegment | hword
    · exact hlettered.ne_empty hsegment.symm
    · exact hwords hversion hword
  | @qualified front words last _ hsplit hfront hlettered hversion =>
    rw [hsplit] at hempty
    rcases List.mem_append.mp hempty with hsegment | hrest
    · exact (hlettered "" (List.mem_append_left _ hsegment)).ne_empty rfl
    · rcases List.mem_cons.mp hrest with hsegment | hword
      · exact (hlettered last (by simp)).ne_empty hsegment.symm
      · exact hwords hversion hword

end Reference

end BusSchema
