import BusSchema.Proofs.Number.Units
import BusSchema.Proofs.Number.WholeOrder

/-!
# Doubles that are integers

Every finite double is a whole number of units, so that its exact value is an integer
(`Double.scaled`), and it is the integer `v` if it has `v` times the units of the number one
(`Double.IsInteger`).  An integer is no double but the one it is rounded to, except for the sign of
zero (`Double.IsInteger.magnitude_eq`, `Double.IsInteger.isNegative_eq`).

Rounding makes an integer of an integer and does not pass a power of two
(`Double.exists_isInteger_ofInt`).  The conversion to 64 bits takes an integer as it is, up to the
ends of the range (`Double.IsInteger.toUnsigned64_eq`, `Double.IsInteger.toSigned64_eq`).
-/

namespace BusSchema

namespace Double

/-- The exact value of a finite double, in units. -/
def scaled (x : Double) : Int :=
  if x.isNegative then -(BinaryFormat.double.units x.magnitude : Int)
  else BinaryFormat.double.units x.magnitude

/-- The exact value of the double is the integer; both zeros are the integer zero. -/
structure IsInteger (x : Double) (v : Int) : Prop where
  finite : x.isFinite = true
  scaled_eq : x.scaled = v * twoPow BinaryFormat.double.unitExponent

theorem magnitude_ofInt (v : Int) : (ofInt v).magnitude = wholeRank v.natAbs :=
  magnitude_ofMagnitude (wholeRank_lt _)

theorem isNegative_ofInt (v : Int) : (ofInt v).isNegative = decide (v < 0) :=
  isNegative_ofMagnitude (wholeRank_lt _)

theorem natAbs_scaled (x : Double) : x.scaled.natAbs = BinaryFormat.double.units x.magnitude := by
  unfold scaled
  split
  · rw [Int.natAbs_neg, Int.natAbs_natCast]
  · rw [Int.natAbs_natCast]

theorem scaled_ofInt (v : Int) :
    (ofInt v).scaled = v.sign * BinaryFormat.double.units (ofInt v).magnitude := by
  rw [scaled, isNegative_ofInt]
  rcases lt_trichotomy v 0 with hneg | rfl | hpos
  · rw [decide_eq_true hneg, if_pos rfl, Int.sign_eq_neg_one_of_neg hneg, Int.neg_one_mul]
  · have hzero : BinaryFormat.double.units (ofInt 0).magnitude = 0 := by decide +kernel
    rw [hzero]
    rfl
  · rw [decide_eq_false (Int.not_lt.mpr (Int.le_of_lt hpos)), if_neg Bool.false_ne_true,
      Int.sign_eq_one_of_pos hpos, Int.one_mul]

namespace IsInteger

variable {x : Double} {v : Int}

theorem units_eq (h : x.IsInteger v) : BinaryFormat.double.units x.magnitude =
    v.natAbs * twoPow BinaryFormat.double.unitExponent := by
  rw [← natAbs_scaled, h.scaled_eq, Int.natAbs_mul, Int.natAbs_natCast]

theorem magnitude_eq (h : x.IsInteger v) : x.magnitude = wholeRank v.natAbs := by
  have hmagnitude : x.magnitude ≤ BinaryFormat.double.infinity :=
    Nat.le_of_lt (of_decide_eq_true h.finite)
  rw [← BinaryFormat.nearest_units hmagnitude, h.units_eq]
  rfl

theorem isNegative_eq (h : x.IsInteger v) (hv : v ≠ 0) : x.isNegative = decide (v < 0) := by
  have hunit : (0 : Int) < twoPow BinaryFormat.double.unitExponent :=
    Int.natCast_pos.mpr (twoPow_pos _)
  have hscaled := h.scaled_eq
  unfold scaled at hscaled
  split at hscaled
  · next hnegative =>
    rw [hnegative, eq_comm, decide_eq_true_eq]
    by_contra hle
    have hpos := Int.mul_pos (lt_of_le_of_ne (Int.not_lt.mp hle) hv.symm) hunit
    omega
  · next hpositive =>
    rw [Bool.not_eq_true] at hpositive
    rw [hpositive, eq_comm, decide_eq_false_iff_not]
    intro hlt
    have hneg := Int.mul_neg_of_neg_of_pos hlt hunit
    omega

theorem isNegative_of_neg (h : x.IsInteger v) (hv : v < 0) : x.isNegative = true := by
  rw [h.isNegative_eq (Int.ne_of_lt hv), decide_eq_true hv]

theorem isNegative_of_pos (h : x.IsInteger v) (hv : 0 < v) : x.isNegative = false := by
  rw [h.isNegative_eq (Int.ne_of_gt hv), decide_eq_false (Int.not_lt.mpr (Int.le_of_lt hv))]

theorem isNaN_eq (h : x.IsInteger v) : x.isNaN = false := by
  have hfinite : x.magnitude < BinaryFormat.double.infinity := of_decide_eq_true h.finite
  exact decide_eq_false (Nat.not_lt.mpr (Nat.le_of_lt hfinite))

theorem wholePart_eq (h : x.IsInteger v) : x.wholePart = v.natAbs := by
  rw [wholePart, h.units_eq]
  exact Nat.mul_div_cancel _ (twoPow_pos _)

/-- An integer becomes the nearest one of the unsigned 64-bit range. -/
theorem toUnsigned64_eq (h : x.IsInteger v) :
    (x.toUnsigned64 : Int) = max 0 (min v (twoPow 64 - 1 : Nat)) := by
  have hlimit := twoPow_pos 64
  rw [toUnsigned64, h.isNaN_eq, h.finite, h.wholePart_eq, Bool.false_or, if_pos rfl]
  rcases lt_trichotomy v 0 with hneg | rfl | hpos
  · rw [h.isNegative_of_neg hneg, if_pos rfl]
    omega
  · split <;> simp
  · rw [h.isNegative_of_pos hpos, if_neg Bool.false_ne_true]
    omega

/-- An integer becomes the nearest one of the signed 64-bit range. -/
theorem toSigned64_eq (h : x.IsInteger v) :
    x.toSigned64 = max (-(twoPow 63 : Int)) (min v (twoPow 63 - 1 : Nat)) := by
  have hlimit := twoPow_pos 63
  rw [toSigned64, h.isNaN_eq, h.finite, h.wholePart_eq, if_neg Bool.false_ne_true, if_pos rfl,
    if_pos rfl]
  rcases lt_trichotomy v 0 with hneg | rfl | hpos
  · rw [h.isNegative_of_neg hneg, if_pos rfl]
    omega
  · split <;> simp
  · rw [h.isNegative_of_pos hpos, if_neg Bool.false_ne_true]
    omega

/-- The double that an integer is converted to is that integer, if there is such a double. -/
theorem isInteger_ofInt (h : x.IsInteger v) : (ofInt v).IsInteger v := by
  have hmagnitude : (ofInt v).magnitude = x.magnitude := by
    rw [magnitude_ofInt, h.magnitude_eq]
  refine ⟨?_, ?_⟩
  · rw [isFinite, hmagnitude]
    exact h.finite
  · rw [scaled_ofInt, hmagnitude, h.units_eq, Int.natCast_mul, ← Int.mul_assoc,
      Int.sign_mul_natAbs]

end IsInteger

theorem ofInt_congr {u v : Int} (hsign : u.sign = v.sign)
    (hrank : wholeRank u.natAbs = wholeRank v.natAbs) : ofInt u = ofInt v := by
  have hneg : u < 0 ↔ v < 0 := by
    rw [← Int.sign_eq_neg_one_iff_neg, hsign, Int.sign_eq_neg_one_iff_neg]
  rw [ofInt, ofInt, ofRatio_one, ofRatio_one, hrank, decide_eq_decide.mpr hneg]

theorem isInteger_ofInt_of_units {v : Int} {n : Nat}
    (hfinite : BinaryFormat.double.wholePattern v.natAbs < BinaryFormat.double.infinity)
    (hn : BinaryFormat.double.units (BinaryFormat.double.wholePattern v.natAbs) =
      n * twoPow BinaryFormat.double.unitExponent) :
    (ofInt v).IsInteger (v.sign * n) := by
  have hrank : wholeRank v.natAbs = BinaryFormat.double.wholePattern v.natAbs :=
    Nat.min_eq_left (Nat.le_of_lt hfinite)
  refine ⟨?_, ?_⟩
  · rw [isFinite, magnitude_ofInt, hrank, decide_eq_true_eq]
    exact hfinite
  · rw [scaled_ofInt, magnitude_ofInt, hrank, hn, Int.natCast_mul, Int.mul_assoc]

/-- An integer is not rounded if it has at most 53 bits, or is the next power of two. -/
theorem isInteger_ofInt_of_le {v : Int} (hv : v.natAbs ≤ 2 ^ 53) : (ofInt v).IsInteger v := by
  have hfinite := Nat.lt_of_le_of_lt (BinaryFormat.wholePattern_mono hv)
    (wholePattern_pow_lt_infinity (k := 53) (by decide))
  have hunits : BinaryFormat.double.units (BinaryFormat.double.wholePattern v.natAbs) =
      v.natAbs * twoPow BinaryFormat.double.unitExponent := by
    rcases Nat.eq_or_lt_of_le hv with hpow | hlt
    · rw [hpow, BinaryFormat.units_wholePattern_pow]
    by_cases hzero : v.natAbs = 0
    · rw [hzero, BinaryFormat.wholePattern_zero]
      simp [BinaryFormat.units]
    · exact BinaryFormat.units_wholePattern hzero
        (Nat.le_of_lt_succ ((Nat.log2_lt hzero).mpr hlt))
  have hinteger := isInteger_ofInt_of_units hfinite hunits
  rwa [Int.sign_mul_natAbs] at hinteger

/--
Rounding makes an integer of an integer, which is converted to the same double, and does not pass
zero or a power of two.
-/
theorem exists_isInteger_ofInt {v : Int} {k : Nat} (hk : k ≤ 1023) (hv : v.natAbs ≤ 2 ^ k) :
    ∃ u : Int, (ofInt v).IsInteger u ∧ ofInt u = ofInt v ∧ u.natAbs ≤ 2 ^ k ∧ u.sign = v.sign := by
  rcases eq_or_ne v 0 with rfl | hv0
  · exact ⟨0, isInteger_ofInt_of_le (by decide), rfl, Nat.zero_le _, rfl⟩
  have hfinite := Nat.lt_of_le_of_lt (BinaryFormat.wholePattern_mono hv)
    (wholePattern_pow_lt_infinity hk)
  obtain ⟨n, hnk, hn⟩ := BinaryFormat.exists_units_wholePattern (f := BinaryFormat.double) hv
  have hinteger := isInteger_ofInt_of_units hfinite hn
  have hnat : (v.sign * n : Int).natAbs = n := by
    rw [Int.natAbs_mul, Int.natAbs_sign_of_ne_zero hv0, Int.natAbs_natCast, Nat.one_mul]
  have hsame : wholeRank n = wholeRank v.natAbs := by
    rw [← magnitude_ofInt, hinteger.magnitude_eq, hnat]
  have hn0 : n ≠ 0 := by
    rintro rfl
    have hpos := wholeRank_pos (Int.natAbs_ne_zero.mpr hv0)
    rw [← hsame, wholeRank, BinaryFormat.wholePattern_zero, Nat.zero_min] at hpos
    exact Nat.lt_irrefl 0 hpos
  have hsign : (v.sign * n : Int).sign = v.sign := by
    rw [Int.sign_mul, Int.sign_sign, Int.sign_natCast_of_ne_zero hn0, Int.mul_one]
  exact ⟨v.sign * n, hinteger, ofInt_congr hsign (by rw [hnat, hsame]), by rwa [hnat], hsign⟩

/-! ## There and back -/

/-- A whole number of at most 53 bits comes back from its double. -/
theorem toUnsigned64_ofNat {n : Nat} (hn : n < 2 ^ 53) : (ofNat n).toUnsigned64 = n := by
  have hinteger := isInteger_ofInt_of_le (v := n) (Nat.le_of_lt hn)
  rw [ofInt_natCast] at hinteger
  have hwhole := hinteger.toUnsigned64_eq
  have hlimit : (2 : Nat) ^ 53 < twoPow 64 := by decide
  omega

/-- Above 53 bits a power of two may as well be cut off to the number before it. -/
theorem ofInt_min_pred_pow {v : Int} {k : Nat} (hlarge : 53 < k) (hk : k ≤ 1023)
    (hv : v ≤ twoPow k) : ofInt (min v (twoPow k - 1 : Nat)) = ofInt v := by
  have hpos := twoPow_pos k
  rcases Int.lt_or_eq_of_le hv with hlt | rfl
  · rw [Int.min_eq_left (by omega)]
  · have hone : 1 < twoPow k := Nat.one_lt_two_pow (by omega)
    rw [Int.min_eq_right (by omega), ofInt_natCast, ofInt_natCast]
    exact congrArg (ofMagnitude false) (wholeRank_pred_pow hlarge hk)

/-- The double of an unsigned 64-bit integer comes back from the range, where it may be cut off. -/
theorem ofNat_toUnsigned64_ofNat {n : Nat} (hn : n ≤ twoPow 64) :
    ofNat (ofNat n).toUnsigned64 = ofNat n := by
  obtain ⟨u, hinteger, hsame, hle, hsign⟩ := exists_isInteger_ofInt (v := n) (k := 64) (by decide) hn
  have hu : 0 ≤ u := by
    rw [← Int.sign_nonneg_iff, hsign, Int.sign_nonneg_iff]
    exact Int.natCast_nonneg n
  have hpos := twoPow_pos 64
  rw [← twoPow_eq] at hle
  rw [← ofInt_natCast, ← ofInt_natCast, hinteger.toUnsigned64_eq, Int.max_eq_right (by omega),
    ofInt_min_pred_pow (by decide) (by decide) (by omega), hsame]

/-- The double of a signed 64-bit integer comes back from the range, where it may be cut off. -/
theorem ofInt_toSigned64_ofInt {v : Int} (hv : v.natAbs ≤ twoPow 63) :
    ofInt (ofInt v).toSigned64 = ofInt v := by
  obtain ⟨u, hinteger, hsame, hle, -⟩ := exists_isInteger_ofInt (k := 63) (by decide) hv
  have hpos := twoPow_pos 63
  rw [← twoPow_eq] at hle
  rw [hinteger.toSigned64_eq, Int.max_eq_right (by omega),
    ofInt_min_pred_pow (by decide) (by decide) (by omega), hsame]

end Double

end BusSchema
