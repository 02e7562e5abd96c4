import BusSchema.Proofs.Number.WholeOrder
import BusSchema.Proofs.Schema.Elaboration

/-!
# Constants and the ranges of their types

An integer constant is compared with the range of its type after both were rounded to doubles.  Up
to 53 bits, and for 64 bits, this is the comparison of the integers; in between, the constant may
lie beyond an end of the range as far as it is rounded to that end
(`Load.run_elaborateLine_constant`).
-/

namespace BusSchema

open Double (wholeRank roundedToPow roundedToPred)

/-! ## Ranges -/

namespace Primitive

/-- The integer lies in the range of an integer type. -/
def Contains (p : Primitive) (v : Int) : Prop :=
  match p.kind with
  | .unsigned => 0 ≤ v ∧ v < 2 ^ p.width
  | .signed => -2 ^ (p.width - 1) ≤ v ∧ v < 2 ^ (p.width - 1)
  | _ => False

/-- The integer is not beyond the ends of the range of an integer type once all are rounded. -/
def Accepts (p : Primitive) (v : Int) : Prop :=
  match p.kind with
  | .unsigned => 0 ≤ v ∧ v ≤ roundedToPred p.width
  | .signed => -(roundedToPow (p.width - 1) : Int) ≤ v ∧ v ≤ roundedToPred (p.width - 1)
  | _ => False

end Primitive

namespace ConstantValue

/-- The value of an integer constant. -/
def integer? : ConstantValue → Option Int
  | signed value => some value
  | unsigned value => some value
  | _ => none

end ConstantValue

/-- The literal of a constant as it is kept: what was written, without blanks. -/
def Constant.literalOf (written : String) : String :=
  String.ofList (Text.dropBlanks written.toList)

/-! ## Literals -/

namespace Literal

theorem readMagnitude_lt {text : List Char} {n : Nat} (h : readMagnitude text = .ok n) :
    n < 2 ^ 64 := by
  have hread := mapError_eq_ok_iff.mp h
  exact Numeral.read_lt (twoPow_pos 64) hread

theorem readCharacter_lt {text : List Char} {n : Nat} (h : readCharacter text = .ok n) :
    n < 2 ^ 64 := by
  unfold readCharacter at h
  simp only at h
  split at h
  · cases h
  · split at h
    · split at h
      · next c _ =>
        cases h
        have hc : c.toNat < 2 ^ 32 := c.val.toNat_lt
        exact Nat.lt_trans hc (by decide)
      · cases h
    · cases h

/-- A literal of an unsigned type is a 64-bit number. -/
theorem eq_unsigned_of_read {literal : String} {value : ConstantValue}
    (h : read .unsigned literal = .ok value) : ∃ n, value = .unsigned n ∧ n < 2 ^ 64 := by
  unfold read at h
  simp only at h
  split at h
  · obtain ⟨n, hn, rfl⟩ := map_eq_ok_iff.mp h
    exact ⟨n, rfl, readCharacter_lt hn⟩
  · obtain ⟨n, hn, rfl⟩ := map_eq_ok_iff.mp h
    exact ⟨n, rfl, readMagnitude_lt hn⟩

/-- A literal of a signed type is a signed 64-bit number. -/
theorem eq_signed_of_read {literal : String} {value : ConstantValue}
    (h : read .signed literal = .ok value) :
    ∃ v : Int, value = .signed v ∧ -2 ^ 63 ≤ v ∧ v < 2 ^ 63 := by
  obtain ⟨v, hv, rfl⟩ := map_eq_ok_iff.mp h
  unfold readSigned at hv
  generalize Decimal.splitSign literal.toList = parts at hv
  obtain ⟨negative, magnitude⟩ := parts
  obtain ⟨n, -, hrest⟩ := bind_eq_ok_iff.mp hv
  generalize (if negative then -(n : Int) else n) = w at hrest
  simp only at hrest
  split at hrest
  · next hbounds =>
    cases hrest
    exact ⟨_, rfl, hbounds⟩
  · cases hrest

end Literal

/-! ## Constants -/

namespace Primitive

variable {p : Primitive} {literal : String} {value : ConstantValue} {v : Int}

/-- Only literals of integer types denote integers. -/
theorem kind_of_integer? (hvalue : Literal.read p.kind literal = .ok value)
    (hinteger : value.integer? = some v) :
    (p.kind = .unsigned ∧ value = .unsigned v.toNat ∧ 0 ≤ v ∧ v < 2 ^ 64) ∨
      (p.kind = .signed ∧ value = .signed v ∧ -2 ^ 63 ≤ v ∧ v < 2 ^ 63) := by
  cases hkind : p.kind with
  | bool =>
    rw [hkind] at hvalue
    unfold Literal.read at hvalue
    simp only at hvalue
    split at hvalue
    · cases hvalue
      cases hinteger
    · split at hvalue <;> cases hvalue
      cases hinteger
  | float =>
    rw [hkind] at hvalue
    unfold Literal.read at hvalue
    simp only at hvalue
    split at hvalue
    · split at hvalue <;> cases hvalue
      cases hinteger
    · cases hvalue
  | void =>
    rw [hkind] at hvalue
    cases hvalue
  | unsigned =>
    rw [hkind] at hvalue
    obtain ⟨n, rfl, hn⟩ := Literal.eq_unsigned_of_read hvalue
    cases hinteger
    exact Or.inl ⟨rfl, by simp, by omega, by omega⟩
  | signed =>
    rw [hkind] at hvalue
    obtain ⟨w, rfl, hlower, hupper⟩ := Literal.eq_signed_of_read hvalue
    cases hinteger
    exact Or.inr ⟨rfl, rfl, hlower, hupper⟩

/-- The check of a constant finds an integer beyond an end of the range as a double. -/
theorem beyond_range_iff (hvalue : Literal.read p.kind literal = .ok value)
    (hinteger : value.integer? = some v) :
    (value.toDouble.lt p.range.1 || p.range.2.lt value.toDouble) = true ↔ ¬p.Accepts v := by
  rcases kind_of_integer? hvalue hinteger with ⟨hkind, rfl, hv, -⟩ | ⟨hkind, rfl, -, -⟩
  · have hwidth : p.width ≤ 1023 := by
      have hallowed := p.allowed
      rw [hkind] at hallowed
      exact Nat.le_trans hallowed.2 (by decide)
    have hdouble : (ConstantValue.unsigned v.toNat).toDouble = Double.ofInt v := by
      rw [ConstantValue.toDouble, ← Double.ofInt_natCast, Int.toNat_of_nonneg hv]
    have hrange : p.range = (Double.zero, Double.ofNat (twoPow p.width - 1)) := by
      rw [range, hkind]
    have hzero : (Double.ofInt v).lt Double.zero = false := by
      rw [← hdouble]
      exact Double.not_ofNat_lt_zero _
    rw [hdouble, hrange, Accepts, hkind]
    simp only [hzero, Bool.false_or, Double.pred_pow_lt_ofInt_iff hwidth]
    omega
  · have hwidth : p.width - 1 ≤ 1023 := by
      have hallowed := p.allowed
      rw [hkind] at hallowed
      have := hallowed.2
      omega
    have hrange : p.range = (Double.ofInt (-(twoPow (p.width - 1) : Int)),
        Double.ofNat (twoPow (p.width - 1) - 1)) := by
      rw [range, hkind]
    rw [ConstantValue.toDouble, hrange, Accepts, hkind, Bool.or_eq_true,
      Double.ofInt_lt_neg_pow_iff hwidth, Double.pred_pow_lt_ofInt_iff hwidth]
    omega

/-- Up to 53 bits, and for 64 bits, literals are compared with the range exactly. -/
theorem accepts_iff_contains (hvalue : Literal.read p.kind literal = .ok value)
    (hinteger : value.integer? = some v) (hwidth : p.width ≤ 53 ∨ p.width = 64) :
    p.Accepts v ↔ p.Contains v := by
  have hallowed := p.allowed
  rcases kind_of_integer? hvalue hinteger with
    ⟨hkind, -, hlower, hupper⟩ | ⟨hkind, -, hlower, hupper⟩
  · rw [hkind] at hallowed
    rw [Accepts, Contains, hkind]
    simp only
    rcases hwidth with hsmall | hfull
    · have hpos := Nat.two_pow_pos p.width
      rw [Double.roundedToPred_of_le hsmall]
      push_cast [hpos]
      omega
    · have hend := Double.pow_sub_one_le_roundedToPred 64
      rw [hfull]
      omega
  · rw [hkind] at hallowed
    rw [Accepts, Contains, hkind]
    simp only
    rcases hwidth with hsmall | hfull
    · have hpos := Nat.two_pow_pos (p.width - 1)
      have hless : p.width - 1 < 53 := by
        have := hallowed.1
        omega
      rw [Double.roundedToPred_of_le (Nat.le_of_lt hless), Double.roundedToPow_of_lt hless]
      push_cast [hpos]
      omega
    · have hend := Double.pow_sub_one_le_roundedToPred 63
      have hleast : 2 ^ 63 ≤ roundedToPow 63 := Nat.le_add_right _ _
      have hwhole : 64 - 1 = 63 := rfl
      rw [hfull, hwhole]
      omega

/-- Every integer in the range is accepted. -/
theorem accepts_of_contains (p : Primitive) (hcontains : p.Contains v) : p.Accepts v := by
  unfold Contains at hcontains
  unfold Accepts
  split at hcontains
  · next hkind =>
    have hend := Double.pow_sub_one_le_roundedToPred p.width
    have hcast : ((2 ^ p.width : Nat) : Int) = 2 ^ p.width := by norm_cast
    omega
  · next hkind =>
    have hend := Double.pow_sub_one_le_roundedToPred (p.width - 1)
    have hcast : ((2 ^ (p.width - 1) : Nat) : Int) = 2 ^ (p.width - 1) := by norm_cast
    have hleast : 2 ^ (p.width - 1) ≤ roundedToPow (p.width - 1) := Nat.le_add_right _ _
    omega
  · exact hcontains.elim

end Primitive

namespace Constant

variable {p : Primitive} {name written : String} {value : ConstantValue} {v : Int}

/-- A constant is made of a literal unless its value is beyond an end of the range as a double. -/
theorem make_eq (hvalue : Literal.read p.kind (literalOf written) = .ok value) :
    make name (.primitive p) written =
      if value.toDouble.lt p.range.1 || p.range.2.lt value.toDouble then
        .error (.constantRange name (literalOf written) p.spelling)
      else .ok ⟨name, p, value, literalOf written⟩ := by
  have hread : (Literal.read p.kind (literalOf written)).mapError LineFault.literal = .ok value :=
    mapError_eq_ok_iff.mpr hvalue
  unfold make
  simp only
  rw [← literalOf, hread]
  rfl

theorem make_of_accepts (hvalue : Literal.read p.kind (literalOf written) = .ok value)
    (hinteger : value.integer? = some v) (haccepts : p.Accepts v) :
    make name (.primitive p) written = .ok ⟨name, p, value, literalOf written⟩ := by
  have hbeyond := mt (Primitive.beyond_range_iff hvalue hinteger).mp (not_not.mpr haccepts)
  rw [make_eq hvalue, if_neg hbeyond]

theorem make_of_not_accepts (hvalue : Literal.read p.kind (literalOf written) = .ok value)
    (hinteger : value.integer? = some v) (haccepts : ¬p.Accepts v) :
    make name (.primitive p) written =
      .error (.constantRange name (literalOf written) p.spelling) := by
  rw [make_eq hvalue, if_pos ((Primitive.beyond_range_iff hvalue hinteger).mpr haccepts)]

end Constant

/-! ## Lines -/

namespace DefinitionDraft

/-- A constant under a new name is put behind the constants of the current section. -/
theorem push_constant (table : TypeTable) (draft : DefinitionDraft) (c : Constant)
    (hnew : c.name ∉ draft.names) :
    ∃ next, draft.push table (.constant c) = .ok next ∧
      next.current.constants = draft.current.constants ++ [c] := by
  have hnoted : ∃ names, draft.noteName c.name = .ok { draft with names } := by
    unfold noteName
    split
    · exact ⟨draft.names, rfl⟩
    · exact ⟨c.name :: draft.names, rfl⟩
  obtain ⟨names, hnames⟩ := hnoted
  have hpush : draft.push table (.constant c) =
      .ok (({ draft with names } : DefinitionDraft).setCurrent
        { draft.current with constants := draft.current.constants ++ [c] }) := by
    unfold push
    have hname : (Attribute.constant c).name = c.name := rfl
    rw [hname, hnames]
    rfl
  refine ⟨_, hpush, ?_⟩
  rw [current_setCurrent]

end DefinitionDraft

namespace Load

variable {resolve : Resolver} {located : LineFault → SchemaError} {draft : DefinitionDraft}
  {table : TypeTable} {line : List Char}

/-- A line is read by what it says. -/
theorem elaborateLine_of_read? {statement : Statement}
    (hread : Statement.read? (stripComment line) = some statement) :
    elaborateLine resolve located draft line =
      elaborateStatement resolve located draft statement := by
  unfold elaborateLine
  split
  · next hblank =>
    rw [hblank] at hread
    cases hread
  · rw [hread]

/-- The line of a constant is read by making the constant and adding it to the draft. -/
theorem run_elaborateLine_of_constant {cast : CastMode} {kind : ScalarKind}
    {digits name written : String} {p : Primitive}
    (hread : Statement.read? (stripComment line) =
      some (.member ⟨cast, .scalar (.numeric kind digits), some name, some written⟩))
    (htype : FieldType.readNumeric kind digits cast = .ok (.primitive p)) :
    (elaborateLine resolve located draft line).run table =
      match Constant.make name (.primitive p) written with
      | .ok c => (ofLine located (draft.push table (.constant c))).run table
      | .error fault => (.error (located fault), table) := by
  rw [elaborateLine_of_read? hread]
  unfold elaborateStatement elaborateType elaborateScalar
  simp only
  rw [htype, run_bind]
  have hattr : Attribute.make (.primitive p) (some name) (some written) =
      (Constant.make name (.primitive p) written).map .constant := rfl
  have hfirst : (ofLine located (Except.ok (FieldType.primitive p))).run table =
      (.ok (.primitive p), table) := rfl
  rw [hfirst]
  simp only
  rw [hattr, run_bind]
  cases Constant.make name (.primitive p) written with
  | ok c => rfl
  | error fault => rfl

/--
The line of a constant whose literal denotes an integer is accepted if and only if the integer is
not beyond the range of its type as a double, and otherwise refused for its range.  All integers in
the range are accepted, and up to 53 bits, and for 64 bits, no others.
-/
theorem run_elaborateLine_constant {cast : CastMode} {kind : ScalarKind}
    {digits name written : String} {p : Primitive} {value : ConstantValue} {v : Int}
    (hread : Statement.read? (stripComment line) =
      some (.member ⟨cast, .scalar (.numeric kind digits), some name, some written⟩))
    (htype : FieldType.readNumeric kind digits cast = .ok (.primitive p))
    (hvalue : Literal.read p.kind (Constant.literalOf written) = .ok value)
    (hinteger : value.integer? = some v) (hnew : name ∉ draft.names) :
    let literal := Constant.literalOf written
    let result := (elaborateLine resolve located draft line).run table
    (p.Accepts v → ∃ next, result = (.ok next, table) ∧
      next.current.constants = draft.current.constants ++ [⟨name, p, value, literal⟩]) ∧
      (¬p.Accepts v →
        result = (.error (located (.constantRange name literal p.spelling)), table)) ∧
      (p.Contains v → p.Accepts v) ∧
      (p.width ≤ 53 ∨ p.width = 64 → (p.Accepts v ↔ p.Contains v)) := by
  intro literal result
  have hrun : result = _ := run_elaborateLine_of_constant hread htype
  refine ⟨?_, ?_, p.accepts_of_contains, p.accepts_iff_contains hvalue hinteger⟩
  · intro haccepts
    obtain ⟨next, hnext, hconstants⟩ :=
      draft.push_constant table ⟨name, p, value, literal⟩ hnew
    refine ⟨next, ?_, hconstants⟩
    rw [hrun, Constant.make_of_accepts hvalue hinteger haccepts]
    simp only
    rw [hnext]
    rfl
  · intro haccepts
    rw [hrun, Constant.make_of_not_accepts hvalue hinteger haccepts]

/-- The first integer that is rounded to more than the end of its range is refused. -/
theorem run_elaborateLine_constant_refused :
    let resolve : Resolver := fun located written => throw (located (.unknownDefinition written))
    let line := "uint60 X = 0x10000000 00000081 # too large".toList
    (elaborateLine resolve (.line "r/A.uavcan" 3) {} line).run {} =
      (.error (.line "r/A.uavcan" 3 (.constantRange "X" "0x1000000000000081" "saturated uint60")),
        {}) := by
  intro resolve line
  have hread : Statement.read? (stripComment line) = some (.member ⟨.saturated,
      .scalar (.numeric .unsigned "60"), some "X", some "0x10000000 00000081"⟩) := by
    decide +kernel
  have htype : FieldType.readNumeric .unsigned "60" .saturated =
      .ok (.primitive ⟨.unsigned, 60, .saturated, by decide⟩) := by
    decide +kernel
  have hvalue : Literal.read .unsigned (Constant.literalOf "0x10000000 00000081") =
      .ok (.unsigned 0x1000000000000081) := by
    decide +kernel
  have hliteral : Constant.literalOf "0x10000000 00000081" = "0x1000000000000081" := by
    decide +kernel
  have hbeyond : ¬(⟨.unsigned, 60, .saturated, by decide⟩ : Primitive).Accepts
      0x1000000000000081 := by
    rintro ⟨-, hupper⟩
    have hbound : roundedToPred 60 = 0x1000000000000080 := by decide +kernel
    rw [hbound] at hupper
    omega
  obtain ⟨-, hrefused, -⟩ := @run_elaborateLine_constant resolve (.line "r/A.uavcan" 3) {} {}
    line _ _ _ _ _ _ _ _ hread htype hvalue rfl List.not_mem_nil
  have hresult := hrefused hbeyond
  rw [hliteral] at hresult
  exact hresult

/-- The number behind the range of a type of 60 bits is accepted, as it is rounded to its end. -/
theorem accepts_constant_beyond_range :
    let p : Primitive := ⟨.unsigned, 60, .saturated, by decide⟩
    let path := Path.ofText "r/A.uavcan"
    let loaded := (loadText {} (Path.ofText "r") path "uint60 X = 1152921504606846976\n").run {}
    loaded.1 = .ok 0 ∧
      loaded.2.definitions.map (fun d => d.request.constants) =
        [[⟨"X", p, .unsigned (2 ^ 60), "1152921504606846976"⟩]] ∧
      ¬p.Contains (2 ^ 60) := by
  intro p path loaded
  refine ⟨by decide +kernel, by decide +kernel, ?_⟩
  rintro ⟨-, hupper⟩
  exact absurd hupper (lt_irrefl _)

end Load

end BusSchema
