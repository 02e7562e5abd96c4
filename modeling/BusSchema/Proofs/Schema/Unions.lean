import BusSchema.Proofs.Schema.Declared
import Mathlib.Data.Nat.Log

/-!
# The lengths of unions

A union is as long as one of its members and the tag that tells them apart.  Members that are
compound have padding put around them like all compound fields, and the length of a union counts
this padding as if it were members: it widens the tag, and the least length of the union may be
that of padding (`Load.unionCounted_of_loadText`).  A union is as long as its members say exactly
where nothing is added, that is where all compound members lie between byte boundaries as they are
written; elsewhere it may be too long, and it may even be shorter than any of its members
(`Load.padding_counted_as_member`).
-/

namespace BusSchema

/-! ## Largest and smallest numbers -/

theorem bitWidth_mono {n m : Nat} (h : n ≤ m) : bitWidth n ≤ bitWidth m := by
  have hlog : Nat.log2 n ≤ Nat.log2 m := by
    rw [Nat.log2_eq_log_two, Nat.log2_eq_log_two]
    exact Nat.log_mono_right h
  unfold bitWidth
  split <;> split <;> omega

theorem unionTagWidth_mono {n m : Nat} (h : n ≤ m) : unionTagWidth n ≤ unionTagWidth m := by
  unfold unionTagWidth
  exact bitWidth_mono (by omega)

theorem maximum_append (a b : List Nat) : maximum (a ++ b) = max (maximum a) (maximum b) := by
  induction a with
  | nil => exact (Nat.zero_max _).symm
  | cons n rest ih =>
    have hcons : ∀ numbers, maximum (n :: numbers) = max n (maximum numbers) := fun _ => rfl
    rw [List.cons_append, hcons, hcons, ih, Nat.max_assoc]

theorem maximum_le_iff {numbers : List Nat} {bound : Nat} :
    maximum numbers ≤ bound ↔ ∀ n ∈ numbers, n ≤ bound := by
  constructor
  · exact fun h n hn => Nat.le_trans (FileTree.le_maximum hn) h
  · intro h
    induction numbers with
    | nil => exact Nat.zero_le bound
    | cons n rest ih =>
      obtain ⟨hn, hrest⟩ := List.forall_mem_cons.mp h
      exact Nat.max_le.mpr ⟨hn, ih hrest⟩

theorem maximum_perm {a b : List Nat} (h : a.Perm b) : maximum a = maximum b := h.foldr_eq 0

theorem min?_perm {a b : List Nat} (h : a.Perm b) : a.min? = b.min? := by
  cases ha : a.min? with
  | none =>
    rw [List.min?_eq_none_iff] at ha
    rw [ha, List.nil_perm] at h
    rw [h]
    rfl
  | some n =>
    obtain ⟨hn, hle⟩ := List.min?_eq_some_iff.mp ha
    refine (List.min?_eq_some_iff.mpr ⟨h.mem_iff.mp hn, fun m hm => ?_⟩).symm
    exact hle m (h.mem_iff.mpr hm)

/-! ## Unions of members -/

/-- The greatest length of a union by its members: that of the longest one, with the tag. -/
def unionGreatest (table : TypeTable) (members : List Field) : Nat :=
  maximum (members.map fun f => f.type.greatest table) + unionTagWidth members.length

/-- The least length of a union by its members: that of the shortest one, with the tag. -/
def unionLeast (table : TypeTable) (members : List Field) : Nat :=
  ((members.map fun f => f.type.least table).min?).getD 0 + unionTagWidth members.length

section Members

variable {table : TypeTable}

theorem unionGreatest_perm {a b : List Field} (h : a.Perm b) :
    unionGreatest table a = unionGreatest table b := by
  unfold unionGreatest
  rw [maximum_perm (h.map _), h.length_eq]

theorem unionLeast_perm {a b : List Field} (h : a.Perm b) :
    unionLeast table a = unionLeast table b := by
  unfold unionLeast
  rw [min?_perm (h.map _), h.length_eq]

/-- Padding that is counted as members. -/
theorem unionGreatest_append (members : List Field) (added : List Padding) :
    unionGreatest table (members ++ added.map Field.ofPadding) =
      max (maximum (members.map fun f => f.type.greatest table)) (maximum (added.map (·.width))) +
        unionTagWidth (members.length + added.length) := by
  have hadded : (added.map Field.ofPadding).map (fun f => f.type.greatest table) =
      added.map (·.width) := List.map_map
  unfold unionGreatest
  rw [List.map_append, hadded, maximum_append, List.length_append, List.length_map]

/--
Padding never makes the greatest length of a union smaller than its members say.  It makes no
difference exactly if it leaves the width of the tag and is not longer than all members.
-/
theorem unionGreatest_le (members : List Field) (added : List Padding) :
    unionGreatest table members ≤ unionGreatest table (members ++ added.map Field.ofPadding) ∧
      (unionGreatest table (members ++ added.map Field.ofPadding) = unionGreatest table members ↔
        unionTagWidth (members.length + added.length) = unionTagWidth members.length ∧
          ∀ p ∈ added, p.width ≤ maximum (members.map fun f => f.type.greatest table)) := by
  have htag := unionTagWidth_mono (Nat.le_add_right members.length added.length)
  have hadded : maximum (added.map (·.width)) ≤
      maximum (members.map fun f => f.type.greatest table) ↔
      ∀ p ∈ added, p.width ≤ maximum (members.map fun f => f.type.greatest table) := by
    rw [maximum_le_iff, List.forall_mem_map]
  rw [unionGreatest_append, ← hadded, unionGreatest]
  omega

end Members

namespace Section

variable {table : TypeTable} {s : Section}

theorem Valid.greatest?_union (hs : s.Valid table) (hunion : s.isUnion = true)
    (hfields : s.fields ≠ []) : s.greatest? table = fit32? (unionGreatest table s.fields) := by
  rw [greatest?_of_measured hs.measured, if_neg (by simpa using hfields), if_pos hunion]
  rfl

theorem least_union (hunion : s.isUnion = true) (hfields : s.fields ≠ []) :
    s.least table = saturate32 (unionLeast table s.fields) := by
  unfold least leastWith
  rw [if_pos hunion]
  cases hmin : (s.fields.map fun f => f.type.leastWith table.spans).min? with
  | none =>
    rw [List.min?_eq_none_iff, List.map_eq_nil_iff] at hmin
    exact absurd hmin hfields
  | some n =>
    have hleast : unionLeast table s.fields =
        ((s.fields.map fun f => f.type.leastWith table.spans).min?).getD 0 +
          unionTagWidth s.fields.length := rfl
    rw [hleast, hmin]
    rfl

end Section

namespace Load

/-- The length of a union in a text counts the padding that was added as if it were members. -/
structure UnionCounted (table : TypeTable) (members : List Field) (added : List Padding)
    (s : Section) : Prop where
  narrow : ∀ p ∈ added, p.width ≤ 7
  /-- Nothing is added exactly if compound members lie between byte boundaries anyway. -/
  eq_nil_iff : added = [] ↔ Aligned table members
  greatest? : s.greatest? table =
    fit32? (unionGreatest table (members ++ added.map Field.ofPadding))
  least : s.least table = saturate32 (unionLeast table (members ++ added.map Field.ofPadding))

theorem exists_unionCounted {table : TypeTable} {members : List Field} {s : Section}
    (hs : s.Valid table) (hfields : s.fields = place table members) (hunion : s.isUnion = true)
    (hmembers : members ≠ []) : ∃ added, UnionCounted table members added s := by
  obtain ⟨added, hnarrow, hperm, hnone⟩ := perm_place table members
  rw [← hfields] at hperm
  have hsome : s.fields ≠ [] := by
    intro hnil
    rw [hnil, List.nil_perm] at hperm
    exact hmembers (List.append_eq_nil_iff.mp hperm).1
  refine ⟨added, hnarrow, hnone.trans (place_eq_self_iff members), ?_, ?_⟩
  · rw [hs.greatest?_union hunion hsome, unionGreatest_perm hperm]
  · rw [Section.least_union hunion hsome, unionLeast_perm hperm]

theorem UnionCounted.of_aligned {table : TypeTable} {members : List Field} {added : List Padding}
    {s : Section} (h : UnionCounted table members added s) (haligned : Aligned table members) :
    s.greatest? table = fit32? (unionGreatest table members) ∧
      s.least table = saturate32 (unionLeast table members) := by
  have hgreatest := h.greatest?
  have hleast := h.least
  rw [h.eq_nil_iff.mpr haligned, List.map_nil, List.append_nil] at hgreatest hleast
  exact ⟨hgreatest, hleast⟩

/--
After a text was read, a union in it is as long as the members that the text declares say if all
compound members lie between byte boundaries.  Elsewhere its length counts the padding between
members as well: its greatest length is never below what the members say, and the same exactly if
the padding neither widens the tag nor is longer than all members.
-/
theorem unionCounted_of_loadText (root : Path) (calls : List Call) (tree : FileTree) (path : Path)
    (text : String) :
    let before := tableAfter root calls
    let result := ((loadText tree root path text).run before).1
    let after := ((loadText tree root path text).run before).2
    ∀ id, result = .ok id →
      ∃ source d, SourceFile.ofPath root path = .ok source ∧ after.definitions[id]? = some d ∧
        d.name = source.name ∧ Says tree root source (after.before id) text d ∧
        List.Forall₂ (fun members s => s.isUnion = true → members ≠ [] →
            ∃ added, UnionCounted after members added s ∧
              (Aligned after members →
                s.greatest? after = fit32? (unionGreatest after members) ∧
                  s.least after = saturate32 (unionLeast after members)) ∧
              let counted := unionGreatest after (members ++ added.map Field.ofPadding)
              unionGreatest after members ≤ counted ∧
                (counted = unionGreatest after members ↔
                  unionTagWidth (members.length + added.length) = unionTagWidth members.length ∧
                    ∀ p ∈ added, p.width ≤ maximum (members.map fun f => f.type.greatest after)))
          (declared tree root source (after.before id) text) d.sections := by
  intro before result after id hresult
  obtain ⟨source, d, hsource, hd, hname, hsaid⟩ :=
    says_of_loadText (built_tableAfter root calls) (Prod.ext hresult rfl)
  have hgrows := after.grows_before id
  refine ⟨source, d, hsource, hd, hname, hsaid, forall₂_of_map_eq (hsaid.fields hgrows).symm ?_⟩
  intro s hs members hplaced hunion hmembers
  have hvalid := hsaid.valid.grows hgrows s hs
  obtain ⟨added, hcounted⟩ := exists_unionCounted hvalid hplaced.symm hunion hmembers
  exact ⟨added, hcounted, hcounted.of_aligned, unionGreatest_le members added⟩

/-- A union with a compound member of whole bytes. -/
theorem unionCounted_of_loadText_whole_bytes :
    let root := Path.ofText "r"
    let tree := FileTree.ofTexts [("r/B.uavcan", "uint24 x\n")]
    let path := Path.ofText "r/A.uavcan"
    let text := "@union\nuint8 a\nB b\nuint5 c\n"
    let after := ((loadText tree root path text).run (tableAfter root [])).2
    ∃ d, after.definitions[1]? = some d ∧ d.request.greatest? after = some 26 ∧
      d.request.least after = 7 := by
  intro root tree path text after
  let file : SourceFile := ⟨path, ⟨"A", 0, {}⟩, ""⟩
  have hfile : SourceFile.ofPath root path = .ok file := by decide +kernel
  have hread : ((loadText tree root path text).run (tableAfter root [])).1 = .ok 1 := by
    decide +kernel
  obtain ⟨source, d, hsource, hd, -, -, hlengths⟩ :=
    unionCounted_of_loadText root [] tree path text 1 hread
  obtain rfl : file = source := Except.ok.inj (hfile.symm.trans hsource)
  obtain ⟨members, others, hrequest, -, hmembers⟩ := List.forall₂_cons_right_iff.mp hlengths
  have hwritten : (declared tree root file (after.before 1) text).map (fun members =>
      (place after members == members, unionGreatest after members, unionLeast after members)) =
      [(true, 26, 7)] := by decide +kernel
  have hunion : (after.definitions[1]?).map (fun d => d.request.isUnion) = some true := by
    decide +kernel
  rw [show declared tree root file (after.before 1) text = members :: others from hmembers]
    at hwritten
  obtain ⟨hplace, hlonger⟩ := Prod.mk.inj (List.cons.inj hwritten).1
  obtain ⟨hgreatest, hleast⟩ := Prod.mk.inj hlonger
  have hnonempty : members ≠ [] := by
    rintro rfl
    exact absurd hgreatest (by decide)
  obtain ⟨added, -, haligned, -⟩ :=
    hrequest (Option.some.inj ((congrArg _ hd).symm.trans hunion)) hnonempty
  obtain ⟨hmost, hfewest⟩ := haligned ((place_eq_self_iff members).mp (beq_iff_eq.mp hplace))
  refine ⟨d, hd, hmost.trans ?_, hfewest.trans ?_⟩
  · rw [hgreatest]
    rfl
  · rw [hleast]
    rfl

/-- Padding behind a member of one and a half bytes widens the tag, and is the shortest member. -/
theorem padding_counted_as_member :
    let root := Path.ofText "r"
    let tree := FileTree.ofTexts [("r/B.uavcan", "uint4 x\nuint8 y\n")]
    let path := Path.ofText "r/A.uavcan"
    let text := "@union\nuint8 a\nB n\n"
    let file : SourceFile := ⟨path, ⟨"A", 0, {}⟩, ""⟩
    let loaded := (loadText tree root path text).run {}
    loaded.1 = .ok 1 ∧ SourceFile.ofPath root path = .ok file ∧
      (declared tree root file (loaded.2.before 1) text).map (fun members =>
        (members.map (·.name), unionGreatest loaded.2 members, unionLeast loaded.2 members)) =
          [(["a", "n"], 13, 9)] ∧
      (loaded.2.definitions[1]?).map (fun d =>
        (d.request.isUnion, d.request.greatest? loaded.2, d.request.least loaded.2)) =
          some (true, some 14, 6) := by
  decide +kernel

end Load

end BusSchema
