import BusSchema.Files.Tree
import Mathlib.Data.List.Induction
import Mathlib.Data.List.Nodup
import Mathlib.Data.Prod.Lex
import Mathlib.Data.String.Basic

/-!
# The order of paths

Paths are ordered by keys that are different for paths of different components
(`Path.componentsLt_iff`).  Adding a file to a tree and listing a step of a directory both insert a
key into a list of keys, unless the key is there already (`insertOnce`).  So the steps of a directory
are all different (`FileTree.nodup_steps`), and a tree made of texts holds one file for each path
that a text was put at (`FileTree.pairwise_ofTexts`, `FileTree.exists_mem_ofTexts_iff`).
-/

namespace BusSchema

namespace PathComponent

/-- What components are ordered by. -/
def key (c : PathComponent) : ℕ ×ₗ String := toLex (c.rank, c.text)

theorem key_injective : Function.Injective key := by
  intro a b h
  have hpair : (a.rank, a.text) = (b.rank, b.text) := toLex.injective h
  obtain ⟨hrank, htext⟩ := Prod.mk.injEq .. ▸ hpair
  cases a <;> cases b <;> simp_all [rank, text]

theorem lt_iff {a b : PathComponent} : a.lt b = true ↔ a.key < b.key := by
  simp only [lt, key, Prod.Lex.toLex_lt_toLex, Bool.or_eq_true, Bool.and_eq_true,
    decide_eq_true_eq]

end PathComponent

namespace Path

/-- What the components of paths are ordered by. -/
def key (components : List PathComponent) : List (ℕ ×ₗ String) :=
  components.map PathComponent.key

theorem key_injective : Function.Injective key :=
  List.map_injective_iff.mpr PathComponent.key_injective

theorem componentsLt_iff {as bs : List PathComponent} :
    componentsLt as bs = true ↔ key as < key bs := by
  induction as generalizing bs with
  | nil => cases bs <;> simp [componentsLt, key]
  | cons a as ih =>
    cases bs with
    | nil => simp [componentsLt, key]
    | cons b bs =>
      have hcons : ∀ c cs, key (c :: cs) = c.key :: key cs := fun _ _ => rfl
      rw [hcons, hcons, List.cons_lt_cons_iff, componentsLt, Bool.or_eq_true, Bool.and_eq_true,
        decide_eq_true_eq, PathComponent.lt_iff, ih, PathComponent.key_injective.eq_iff]

end Path

section InsertOnce

variable {α : Type} [LinearOrder α] {a b : α} {list : List α}

/-- Puts an item into a list in strict order, unless the list holds it. -/
def insertOnce (a : α) : List α → List α
  | [] => [a]
  | b :: rest =>
    if b = a then b :: rest
    else if a < b then a :: b :: rest
    else b :: insertOnce a rest

theorem mem_insertOnce_iff : b ∈ insertOnce a list ↔ b = a ∨ b ∈ list := by
  induction list with
  | nil => simp [insertOnce]
  | cons c rest ih =>
    rw [insertOnce]
    split
    · next h => simp [h]
    split
    · exact List.mem_cons
    · rw [List.mem_cons, ih, List.mem_cons, or_left_comm]

theorem pairwise_insertOnce (h : list.Pairwise (· < ·)) :
    (insertOnce a list).Pairwise (· < ·) := by
  induction list with
  | nil => exact List.pairwise_singleton _ _
  | cons b rest ih =>
    obtain ⟨hfirst, hrest⟩ := List.pairwise_cons.mp h
    rw [insertOnce]
    split
    · exact h
    next hne =>
    split
    · next hlt =>
      refine List.pairwise_cons.mpr ⟨?_, h⟩
      exact List.forall_mem_cons.mpr ⟨hlt, fun c hc => hlt.trans (hfirst c hc)⟩
    · next hle =>
      refine List.pairwise_cons.mpr ⟨fun c hc => ?_, ih hrest⟩
      rcases mem_insertOnce_iff.mp hc with rfl | hc
      · exact lt_of_le_of_ne (not_lt.mp hle) hne
      · exact hfirst c hc

end InsertOnce

namespace FileTree

/-! ## Steps of a directory -/

theorem keys_insertComponent (c : PathComponent) (list : List PathComponent) :
    (insertComponent c list).map PathComponent.key =
      insertOnce c.key (list.map PathComponent.key) := by
  induction list with
  | nil => rfl
  | cons d rest ih =>
    rw [List.map_cons, insertComponent, insertOnce]
    simp only [PathComponent.key_injective.eq_iff, ← PathComponent.lt_iff]
    split
    · rfl
    split
    · rfl
    · rw [List.map_cons, ih]

/-- A directory has each step once. -/
theorem nodup_steps (tree : FileTree) (directory : List PathComponent) :
    (tree.steps directory).Nodup := by
  have hsorted : ∀ found : List PathComponent,
      ((found.foldr insertComponent []).map PathComponent.key).Pairwise (· < ·) := by
    intro found
    induction found with
    | nil => exact List.Pairwise.nil
    | cons c rest ih =>
      rw [List.foldr_cons, keys_insertComponent]
      exact pairwise_insertOnce ih
  exact List.Nodup.of_map _ ((hsorted _).imp ne_of_lt)

/-! ## Files of a tree of texts -/

/-- The keys of files. -/
def keys (files : List StoredFile) : List (List (ℕ ×ₗ String)) :=
  files.map fun f => Path.key f.path.components

theorem keys_insertFile (file : StoredFile) (files : List StoredFile) :
    keys (insertFile file files) = insertOnce (Path.key file.path.components) (keys files) := by
  induction files with
  | nil => rfl
  | cons f rest ih =>
    have hcons : ∀ g files, keys (g :: files) = Path.key g.path.components :: keys files :=
      fun _ _ => rfl
    rw [hcons, insertFile, insertOnce]
    simp only [Path.key_injective.eq_iff, ← Path.componentsLt_iff]
    split
    · rfl
    split
    · rfl
    · rw [hcons, ih]

theorem ofTexts_concat (texts : List (String × String)) (entry : String × String) :
    ofTexts (texts ++ [entry]) = (ofTexts texts).put (Path.ofText entry.1) (.ok entry.2) :=
  List.foldl_append

/-- A tree of texts has no faults. -/
theorem faults_ofTexts (texts : List (String × String)) : (ofTexts texts).faults = [] := by
  induction texts using List.reverseRecOn with
  | nil => rfl
  | append_singleton texts entry ih =>
    rw [ofTexts_concat]
    exact ih

theorem keys_ofTexts_concat (texts : List (String × String)) (entry : String × String) :
    keys (ofTexts (texts ++ [entry])).files =
      insertOnce (Path.key (Path.ofText entry.1).components) (keys (ofTexts texts).files) := by
  rw [ofTexts_concat]
  exact keys_insertFile ⟨Path.ofText entry.1, .ok entry.2⟩ (ofTexts texts).files

/-- No two files of a tree of texts have the same components. -/
theorem pairwise_ofTexts (texts : List (String × String)) :
    (ofTexts texts).files.Pairwise fun f g => f.path.components ≠ g.path.components := by
  have hsorted : (keys (ofTexts texts).files).Pairwise (· < ·) := by
    induction texts using List.reverseRecOn with
    | nil => exact List.Pairwise.nil
    | append_singleton texts entry ih =>
      rw [keys_ofTexts_concat]
      exact pairwise_insertOnce ih
  exact (List.pairwise_map.mp hsorted).imp fun hlt hsame => hlt.ne (congrArg Path.key hsame)

/-- A tree of texts has files at the paths that texts were put at, and nowhere else. -/
theorem exists_mem_ofTexts_iff {texts : List (String × String)}
    {components : List PathComponent} :
    (∃ f ∈ (ofTexts texts).files, f.path.components = components) ↔
      ∃ entry ∈ texts, (Path.ofText entry.1).components = components := by
  have hkeys : Path.key components ∈ keys (ofTexts texts).files ↔
      ∃ entry ∈ texts, (Path.ofText entry.1).components = components := by
    induction texts using List.reverseRecOn with
    | nil => simp [ofTexts, keys]
    | append_singleton texts entry ih =>
      rw [keys_ofTexts_concat, mem_insertOnce_iff, Path.key_injective.eq_iff, ih, or_comm]
      simp [or_and_right, exists_or, eq_comm]
  simpa only [keys, List.mem_map, Path.key_injective.eq_iff] using hkeys

end FileTree

end BusSchema
