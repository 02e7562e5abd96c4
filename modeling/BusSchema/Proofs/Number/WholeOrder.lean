import BusSchema.Number.Double
import BusSchema.Proofs.Number.Units

/-!
# The order of rounded whole numbers

Whole numbers are compared as doubles by their patterns (`rank_ofNat`, `rank_ofInt`).  Up to 53
bits the comparison with the ends of a range is exact; above that, a number beyond an end is still
not beyond it as a double if it rounds to it (`Double.pred_pow_lt_ofInt_iff`,
`Double.ofInt_lt_neg_pow_iff`).
-/

namespace BusSchema

namespace Double

/-- The pattern of a whole number in the 64-bit format, at most that of infinity. -/
def wholeRank (n : Nat) : Nat :=
  min (BinaryFormat.double.wholePattern n) BinaryFormat.double.infinity

theorem infinity_lt : BinaryFormat.double.infinity < twoPow 63 := by decide

theorem wholeRank_lt (n : Nat) : wholeRank n < twoPow 63 :=
  Nat.lt_of_le_of_lt (Nat.min_le_right _ _) infinity_lt

variable {negative : Bool} {m n : Nat}

theorem toNat_bits_ofBits {bits : Nat} (hbits : bits < twoPow 64) :
    (ofBits bits).bits.toNat = bits := by
  rw [ofBits, UInt64.toNat_ofNat']
  exact Nat.mod_eq_of_lt hbits

theorem toNat_bits_ofMagnitude (hm : m < twoPow 63) :
    (ofMagnitude negative m).bits.toNat = BinaryFormat.double.pattern negative m := by
  have hpattern : BinaryFormat.double.pattern negative m < twoPow 64 := BinaryFormat.pattern_lt hm
  exact toNat_bits_ofBits hpattern

theorem magnitude_ofMagnitude (hm : m < twoPow 63) : (ofMagnitude negative m).magnitude = m := by
  rw [magnitude, toNat_bits_ofMagnitude hm, BinaryFormat.magnitude_pattern hm]

theorem isNegative_ofMagnitude (hm : m < twoPow 63) :
    (ofMagnitude negative m).isNegative = negative := by
  rw [isNegative, toNat_bits_ofMagnitude hm, BinaryFormat.isNegative_pattern hm]

theorem isNaN_ofMagnitude (hm : m ≤ BinaryFormat.double.infinity) :
    (ofMagnitude negative m).isNaN = false := by
  have hpattern : BinaryFormat.double.magnitude (ofMagnitude negative m).bits.toNat = m :=
    magnitude_ofMagnitude (Nat.lt_of_le_of_lt hm infinity_lt)
  rw [isNaN, BinaryFormat.isNaN, hpattern]
  simpa using hm

theorem ofRatio_one (negative : Bool) (n : Nat) :
    ofRatio negative n 1 = ofMagnitude negative (wholeRank n) := rfl

theorem rank_ofRatio_one (negative : Bool) (n : Nat) :
    (ofRatio negative n 1).rank = if negative then -(wholeRank n : Int) else wholeRank n := by
  rw [ofRatio_one, rank, isNegative_ofMagnitude (wholeRank_lt n),
    magnitude_ofMagnitude (wholeRank_lt n)]

theorem rank_ofNat (n : Nat) : (ofNat n).rank = wholeRank n := rank_ofRatio_one false n

theorem rank_ofInt (v : Int) :
    (ofInt v).rank = if v < 0 then -(wholeRank v.natAbs : Int) else wholeRank v.natAbs := by
  rw [ofInt, rank_ofRatio_one]
  simp

theorem isNaN_ofNat (n : Nat) : (ofNat n).isNaN = false :=
  isNaN_ofMagnitude (Nat.min_le_right _ _)

theorem isNaN_ofInt (v : Int) : (ofInt v).isNaN = false :=
  isNaN_ofMagnitude (Nat.min_le_right _ _)

theorem rank_zero : zero.rank = 0 := by decide +kernel

/-! ## Comparisons at powers of two -/

theorem wholeRank_mono (h : m ≤ n) : wholeRank m ≤ wholeRank n :=
  min_le_min_right _ (BinaryFormat.wholePattern_mono h)

/-- No power of two below the largest one reaches infinity. -/
theorem wholePattern_pow_lt_infinity {k : Nat} (hk : k ≤ 1023) :
    BinaryFormat.double.wholePattern (2 ^ k) < BinaryFormat.double.infinity := by
  have hpattern : BinaryFormat.double.wholePattern (2 ^ k) = (k + 1022) * twoPow 52 + twoPow 52 :=
    BinaryFormat.wholePattern_pow k
  have hinfinity : BinaryFormat.double.infinity = 2047 * twoPow 52 := rfl
  have hpos := twoPow_pos 52
  have hexponent : (k + 1022) * twoPow 52 ≤ 2045 * twoPow 52 :=
    Nat.mul_le_mul_right _ (by omega)
  omega

theorem wholeRank_le_pow_iff {k : Nat} (hk : k ≤ 1023) :
    wholeRank n ≤ wholeRank (2 ^ k) ↔ (n - 2 ^ k) * 2 ^ 53 ≤ 2 ^ k := by
  have hpow := wholePattern_pow_lt_infinity hk
  have hiff := BinaryFormat.wholePattern_le_pow_iff (f := BinaryFormat.double) (n := n) (k := k)
    (by decide)
  unfold wholeRank
  refine Iff.trans ?_ hiff
  omega

theorem wholeRank_lt_pow_iff {k : Nat} (hk : k ≤ 1023) :
    wholeRank n < wholeRank (2 ^ k) ↔ 2 ^ k < (2 ^ k - n) * 2 ^ 54 := by
  have hpow := wholePattern_pow_lt_infinity hk
  have hiff := BinaryFormat.wholePattern_lt_pow_iff (f := BinaryFormat.double) (n := n) (k := k)
  unfold wholeRank
  refine Iff.trans ?_ hiff
  omega

/-- The largest number that is rounded to a power of two, which has a pattern of its own. -/
def roundedToPow (k : Nat) : Nat := 2 ^ k + 2 ^ k / 2 ^ 53

/-- The largest number that is rounded to what the number before a power of two is rounded to. -/
def roundedToPred (k : Nat) : Nat := if k ≤ 53 then 2 ^ k - 1 else roundedToPow k

theorem wholeRank_le_pow_iff_le {k : Nat} (hk : k ≤ 1023) :
    wholeRank n ≤ wholeRank (2 ^ k) ↔ n ≤ roundedToPow k := by
  rw [wholeRank_le_pow_iff hk, ← Nat.le_div_iff_mul_le (by decide), Nat.sub_le_iff_le_add']
  rfl

/-- Above 53 bits the number before a power of two is rounded to that power. -/
theorem wholeRank_pred_pow {k : Nat} (hlarge : 53 < k) (hk : k ≤ 1023) :
    wholeRank (2 ^ k - 1) = wholeRank (2 ^ k) := by
  have hpos := Nat.two_pow_pos k
  have hpred : 2 ^ k - (2 ^ k - 1) = 1 := by omega
  have hgap : 2 ^ 54 ≤ 2 ^ k := Nat.pow_le_pow_right (by decide) hlarge
  refine Nat.le_antisymm (wholeRank_mono (Nat.sub_le _ _)) ?_
  rw [← Nat.not_lt, wholeRank_lt_pow_iff hk, hpred, Nat.one_mul]
  exact Nat.not_lt.mpr hgap

theorem wholeRank_le_pred_iff {k : Nat} (hk : k ≤ 1023) :
    wholeRank n ≤ wholeRank (2 ^ k - 1) ↔ n ≤ roundedToPred k := by
  have hpos := Nat.two_pow_pos k
  unfold roundedToPred
  split
  · next hsmall =>
    have hpred : 2 ^ k - (2 ^ k - 1) = 1 := by omega
    have hgap : 2 ^ k < 2 ^ 54 := Nat.pow_lt_pow_right (by decide) (by omega)
    have hlt : wholeRank (2 ^ k - 1) < wholeRank (2 ^ k) := by
      rwa [wholeRank_lt_pow_iff hk, hpred, Nat.one_mul]
    constructor
    · intro hle
      by_contra habove
      have hge := wholeRank_mono (show 2 ^ k ≤ n by omega)
      omega
    · exact wholeRank_mono
  · next hlarge =>
    rw [wholeRank_pred_pow (Nat.not_le.mp hlarge) hk]
    exact wholeRank_le_pow_iff_le hk

theorem roundedToPred_of_le {k : Nat} (hk : k ≤ 53) : roundedToPred k = 2 ^ k - 1 := if_pos hk

theorem pow_sub_one_le_roundedToPred (k : Nat) : 2 ^ k - 1 ≤ roundedToPred k := by
  unfold roundedToPred
  split
  · exact Nat.le_refl _
  · exact Nat.le_trans (Nat.sub_le _ _) (Nat.le_add_right _ _)

theorem roundedToPow_of_lt {k : Nat} (hk : k < 53) : roundedToPow k = 2 ^ k := by
  have hzero : 2 ^ k / 2 ^ 53 = 0 :=
    Nat.div_eq_of_lt (Nat.pow_lt_pow_right (by decide) hk)
  rw [roundedToPow, hzero, Nat.add_zero]

/-! ## Integers -/

theorem wholeRank_pos {n : Nat} (hn : n ≠ 0) : 0 < wholeRank n := by
  have hone : 0 < wholeRank 1 := by decide +kernel
  exact Nat.lt_of_lt_of_le hone (wholeRank_mono (Nat.one_le_iff_ne_zero.mpr hn))

theorem rank_ofInt_nonneg {v : Int} (hv : 0 ≤ v) : (ofInt v).rank = wholeRank v.natAbs := by
  rw [rank_ofInt, if_neg (Int.not_lt.mpr hv)]

theorem rank_ofInt_neg {v : Int} (hv : v < 0) : (ofInt v).rank = -(wholeRank v.natAbs : Int) := by
  rw [rank_ofInt, if_pos hv]

/-- An integer is below the double of a negated power of two if it is rounded to less. -/
theorem ofInt_lt_neg_pow_iff {v : Int} {k : Nat} (hk : k ≤ 1023) :
    (ofInt v).lt (ofInt (-(twoPow k : Int))) = true ↔ v < -(roundedToPow k : Int) := by
  have hpos := twoPow_pos k
  have hend : (ofInt (-(twoPow k : Int))).rank = -(wholeRank (2 ^ k) : Int) := by
    rw [rank_ofInt_neg (by omega), Int.natAbs_neg, Int.natAbs_natCast, twoPow_eq]
  have hpositive := wholeRank_pos (n := 2 ^ k) (Nat.ne_of_gt (Nat.two_pow_pos k))
  rw [lt, isNaN_ofInt, isNaN_ofInt, hend]
  simp only [Bool.not_false, Bool.true_and, decide_eq_true_eq]
  rcases lt_or_ge v 0 with hv | hv
  · have hiff := wholeRank_le_pow_iff_le (n := v.natAbs) hk
    rw [rank_ofInt_neg hv]
    omega
  · rw [rank_ofInt_nonneg hv]
    omega

/-- An integer is above the double before a power of two if it is rounded to more. -/
theorem pred_pow_lt_ofInt_iff {v : Int} {k : Nat} (hk : k ≤ 1023) :
    (ofNat (twoPow k - 1)).lt (ofInt v) = true ↔ (roundedToPred k : Int) < v := by
  have hend : (ofNat (twoPow k - 1)).rank = wholeRank (2 ^ k - 1) := rank_ofNat _
  rw [lt, isNaN_ofNat, isNaN_ofInt, hend]
  simp only [Bool.not_false, Bool.true_and, decide_eq_true_eq]
  rcases lt_or_ge v 0 with hv | hv
  · rw [rank_ofInt_neg hv]
    omega
  · have hiff := wholeRank_le_pred_iff (n := v.natAbs) hk
    rw [rank_ofInt_nonneg hv]
    omega

theorem ofInt_natCast (n : Nat) : ofInt n = ofNat n := by
  have hsign : decide ((n : Int) < 0) = false := by simp
  rw [ofInt, hsign, Int.natAbs_natCast]
  rfl

theorem not_ofNat_lt_zero (n : Nat) : (ofNat n).lt zero = false := by
  have hrank := rank_ofNat n
  rw [lt, rank_zero, hrank]
  simp

end Double

end BusSchema
