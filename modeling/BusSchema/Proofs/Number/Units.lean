import BusSchema.Proofs.Number.Rounding

/-!
# What patterns stand for

A pattern is a sign and a magnitude (`BinaryFormat.pattern_isNegative_magnitude`).  A magnitude that
is made of an exponent and a rounded quotient stands for that quotient, moved by the exponent
(`BinaryFormat.units_mul_add_significand`).  A number of a format is its own rounding
(`BinaryFormat.nearest_units`), and a whole number is rounded to a whole number
(`BinaryFormat.exists_units_wholePattern`), to itself if it fits into the fraction.
-/

namespace BusSchema

namespace BinaryFormat

/-! ## Signs -/

variable {f : BinaryFormat} {m : Nat}

theorem infinity_lt_twoPow (f : BinaryFormat) : f.infinity < twoPow f.magnitudeWidth := by
  have hpos := twoPow_pos f.exponentWidth
  have hsplit : twoPow f.magnitudeWidth = twoPow f.exponentWidth * twoPow f.fractionWidth :=
    Nat.pow_add 2 _ _
  rw [infinity, hsplit]
  exact Nat.mul_lt_mul_of_pos_right (by omega) (twoPow_pos _)

theorem pattern_lt {negative : Bool} (hm : m < twoPow f.magnitudeWidth) :
    f.pattern negative m < 2 * twoPow f.magnitudeWidth := by
  unfold pattern
  split <;> omega

theorem magnitude_pattern {negative : Bool} (hm : m < twoPow f.magnitudeWidth) :
    f.magnitude (f.pattern negative m) = m := by
  unfold magnitude pattern
  split
  · rw [Nat.add_mod_left]
    exact Nat.mod_eq_of_lt hm
  · exact Nat.mod_eq_of_lt hm

theorem isNegative_pattern {negative : Bool} (hm : m < twoPow f.magnitudeWidth) :
    f.isNegative (f.pattern negative m) = negative := by
  unfold isNegative pattern
  cases negative with
  | true =>
    rw [if_pos rfl, twoPow_eq, Nat.testBit_two_pow_add_eq, Nat.testBit_lt_two_pow hm]
    rfl
  | false => exact Nat.testBit_lt_two_pow hm

/-- A pattern is put together again from its sign and its magnitude. -/
theorem pattern_isNegative_magnitude {bits : Nat} (hbits : bits < 2 * twoPow f.magnitudeWidth) :
    f.pattern (f.isNegative bits) (f.magnitude bits) = bits := by
  have hpos := twoPow_pos f.magnitudeWidth
  have hsplit := Nat.div_add_mod bits (twoPow f.magnitudeWidth)
  have hquotient : bits / twoPow f.magnitudeWidth < 2 :=
    (Nat.div_lt_iff_lt_mul hpos).mpr hbits
  have hsign : f.isNegative bits = decide (bits / twoPow f.magnitudeWidth = 1) := by
    rw [isNegative, Nat.testBit_eq_decide_div_mod_eq, ← twoPow_eq, Nat.mod_eq_of_lt hquotient]
  rw [hsign, pattern, magnitude]
  generalize bits / twoPow f.magnitudeWidth = quotient at hsplit hquotient ⊢
  have hcases : quotient = 0 ∨ quotient = 1 := by omega
  rcases hcases with rfl | rfl
  · rw [if_neg (by decide)]
    omega
  · rw [if_pos (by decide)]
    omega

/-! ## Units -/

/-- What a pattern with a given exponent and fraction stands for. -/
theorem units_mul_add {exponent fraction : Nat} (hexponent : exponent ≠ 0)
    (hfraction : fraction < twoPow f.fractionWidth) :
    f.units (exponent * twoPow f.fractionWidth + fraction) =
      (twoPow f.fractionWidth + fraction) * twoPow (exponent - 1) := by
  have hpos := twoPow_pos f.fractionWidth
  have hdiv : (exponent * twoPow f.fractionWidth + fraction) / twoPow f.fractionWidth =
      exponent := by
    rw [Nat.add_comm, Nat.add_mul_div_right _ _ hpos, Nat.div_eq_of_lt hfraction, Nat.zero_add]
  have hmod : (exponent * twoPow f.fractionWidth + fraction) % twoPow f.fractionWidth =
      fraction := by
    rw [Nat.add_comm, Nat.add_mul_mod_self_right, Nat.mod_eq_of_lt hfraction]
  unfold units
  rw [hdiv, hmod, if_neg hexponent]

/-- What a pattern made of an exponent and a rounded quotient stands for. -/
theorem units_mul_add_significand {shift significand : Nat}
    (hlower : twoPow f.fractionWidth ≤ significand)
    (hupper : significand ≤ 2 * twoPow f.fractionWidth) :
    f.units (shift * twoPow f.fractionWidth + significand) = significand * twoPow shift := by
  rcases Nat.eq_or_lt_of_le hupper with rfl | hlt
  · -- A quotient that was rounded up to the next power of two carries into the exponent.
    have hpattern : shift * twoPow f.fractionWidth + 2 * twoPow f.fractionWidth =
        (shift + 1 + 1) * twoPow f.fractionWidth + 0 := by ring
    have hdouble : twoPow (shift + 1) = twoPow shift * 2 := Nat.pow_succ 2 shift
    rw [hpattern, units_mul_add (Nat.add_one_ne_zero _) (twoPow_pos _), Nat.add_zero,
      Nat.add_sub_cancel, hdouble]
    ring
  · obtain ⟨fraction, rfl⟩ := Nat.exists_eq_add_of_le hlower
    have hpattern : shift * twoPow f.fractionWidth + (twoPow f.fractionWidth + fraction) =
        (shift + 1) * twoPow f.fractionWidth + fraction := by ring
    rw [hpattern, units_mul_add (Nat.add_one_ne_zero _) (by omega), Nat.add_sub_cancel]

/-- A number of the format is its own rounding. -/
theorem nearest_units {m : Nat} (hm : m ≤ f.infinity) : f.nearest (f.units m) 1 = m := by
  have hpos := twoPow_pos f.fractionWidth
  have hsplit : twoPow f.fractionWidth * (m / twoPow f.fractionWidth) +
      m % twoPow f.fractionWidth = m := Nat.div_add_mod m _
  have hrest : m % twoPow f.fractionWidth < twoPow f.fractionWidth := Nat.mod_lt m hpos
  have hround : ∀ n shift : Nat, roundHalfEven (n * twoPow shift) (1 * twoPow shift) = n := by
    intro n shift
    rw [Nat.one_mul]
    exact roundHalfEven_mul (twoPow_pos shift) n
  unfold nearest units
  simp only [Nat.div_one]
  generalize m / twoPow f.fractionWidth = exponent at hsplit ⊢
  generalize m % twoPow f.fractionWidth = fraction at hsplit hrest ⊢
  cases exponent with
  | zero =>
    -- Below the first power of two that has an exponent, the units are the fraction itself.
    have hshift : Nat.log2 fraction - f.fractionWidth = 0 := by
      rcases Nat.eq_zero_or_pos fraction with rfl | hfraction
      · simp
      · have hlog := (Nat.log2_lt (Nat.ne_of_gt hfraction)).mpr hrest
        omega
    have hzero := hround fraction 0
    rw [twoPow_eq, Nat.pow_zero, Nat.mul_one] at hzero
    rw [if_pos rfl, hshift, twoPow_eq 0, Nat.pow_zero, hzero]
    omega
  | succ exponent =>
    have hshift : Nat.log2 ((twoPow f.fractionWidth + fraction) * twoPow exponent) -
        f.fractionWidth = exponent := by
      rw [log2_mul_twoPow (by omega), log2_twoPow_add hrest, Nat.add_sub_cancel_left]
    rw [if_neg (Nat.succ_ne_zero exponent), Nat.add_sub_cancel, hshift, hround]
    rw [Nat.mul_succ, Nat.mul_comm] at hsplit
    omega

/-! ## Whole numbers -/

/-- A whole number that fits into the fraction is not rounded. -/
theorem units_wholePattern {n : Nat} (hn : n ≠ 0) (hlog : Nat.log2 n ≤ f.fractionWidth) :
    f.units (f.wholePattern n) = n * twoPow f.unitExponent := by
  have hself := Nat.log2_self_le hn
  have hupper : n < 2 ^ (Nat.log2 n + 1) := Nat.lt_log2_self
  have hsplit : twoPow f.fractionWidth =
      twoPow (f.fractionWidth - Nat.log2 n) * twoPow (Nat.log2 n) := by
    rw [twoPow_eq, twoPow_eq, twoPow_eq, ← Nat.pow_add, Nat.sub_add_cancel hlog]
  have hround : roundHalfEven (n * twoPow f.fractionWidth) (twoPow (Nat.log2 n)) =
      n * twoPow (f.fractionWidth - Nat.log2 n) := by
    rw [hsplit, ← Nat.mul_assoc]
    exact roundHalfEven_mul (twoPow_pos _) _
  have hlower : twoPow f.fractionWidth ≤ n * twoPow (f.fractionWidth - Nat.log2 n) := by
    rw [hsplit, Nat.mul_comm]
    exact Nat.mul_le_mul_right _ hself
  have hle : n * twoPow (f.fractionWidth - Nat.log2 n) ≤ 2 * twoPow f.fractionWidth := by
    have hdouble : 2 * twoPow f.fractionWidth =
        2 ^ (Nat.log2 n + 1) * twoPow (f.fractionWidth - Nat.log2 n) := by
      rw [hsplit, twoPow_eq, twoPow_eq, Nat.pow_succ]
      ring
    rw [hdouble]
    exact Nat.mul_le_mul_right _ (Nat.le_of_lt hupper)
  have hexponents : twoPow (f.fractionWidth - Nat.log2 n) *
      twoPow (Nat.log2 n + (twoPow (f.exponentWidth - 1) - 2)) = twoPow f.unitExponent := by
    have hunit : f.unitExponent = twoPow (f.exponentWidth - 1) - 2 + f.fractionWidth := rfl
    rw [hunit, twoPow_eq, twoPow_eq, twoPow_eq, ← Nat.pow_add]
    congr 1
    omega
  rw [wholePattern_eq hn, hround, units_mul_add_significand hlower hle, Nat.mul_assoc, hexponents]

/-- A power of two is not rounded. -/
theorem units_wholePattern_pow (k : Nat) :
    f.units (f.wholePattern (2 ^ k)) = 2 ^ k * twoPow f.unitExponent := by
  have hpos := twoPow_pos f.fractionWidth
  have hunit : f.unitExponent = twoPow (f.exponentWidth - 1) - 2 + f.fractionWidth := rfl
  rw [wholePattern_pow, units_mul_add_significand (Nat.le_refl _) (by omega), hunit]
  generalize twoPow (f.exponentWidth - 1) - 2 = bias
  rw [twoPow_eq, twoPow_eq, twoPow_eq]
  ring

/-- A whole number is rounded to a whole number, and not past a power of two. -/
theorem exists_units_wholePattern {n k : Nat} (hnk : n ≤ 2 ^ k) :
    ∃ m ≤ 2 ^ k, f.units (f.wholePattern n) = m * twoPow f.unitExponent := by
  rcases Nat.eq_or_lt_of_le hnk with rfl | hlt
  · exact ⟨2 ^ k, Nat.le_refl _, units_wholePattern_pow k⟩
  by_cases hn : n = 0
  · refine ⟨0, Nat.zero_le _, ?_⟩
    rw [hn, wholePattern_zero]
    simp [units]
  rcases Nat.le_total (Nat.log2 n) f.fractionWidth with hsmall | hlarge
  · exact ⟨n, hnk, units_wholePattern hn hsmall⟩
  -- The distance between neighbouring patterns is a whole number of ones.
  have hnum : n * twoPow f.unitExponent ≠ 0 := Nat.mul_ne_zero hn (Nat.ne_of_gt (twoPow_pos _))
  have hlog := log2_mul_twoPow hn f.unitExponent
  have hshift : Nat.log2 n + f.unitExponent - f.fractionWidth =
      (Nat.log2 n - f.fractionWidth) + f.unitExponent := by omega
  have hscale : twoPow (Nat.log2 n - f.fractionWidth + f.unitExponent) =
      twoPow (Nat.log2 n - f.fractionWidth) * twoPow f.unitExponent := Nat.pow_add 2 _ _
  have hupper := roundHalfEven_le_significand (f := f) (n * twoPow f.unitExponent) Nat.one_pos
  have hdigits : f.fractionWidth ≤ Nat.log2 (n * twoPow f.unitExponent / 1) := by
    rw [Nat.div_one]
    omega
  have hlower := significand_le_roundHalfEven Nat.one_pos hdigits (by rwa [Nat.div_one])
  unfold wholePattern unbounded
  simp only [Nat.div_one, hlog, hshift] at hupper hlower ⊢
  rw [units_mul_add_significand hlower hupper, hscale, ← Nat.mul_assoc]
  refine ⟨_, ?_, rfl⟩
  rw [← hscale]
  refine Nat.le_trans (Nat.mul_le_mul_right _ hupper) ?_
  have hlog2 : Nat.log2 n < k := (Nat.log2_lt hn).mpr hlt
  have hproduct : 2 * twoPow f.fractionWidth * twoPow (Nat.log2 n - f.fractionWidth) =
      2 ^ (f.fractionWidth + (Nat.log2 n - f.fractionWidth) + 1) := by
    rw [twoPow_eq, twoPow_eq]
    ring
  rw [hproduct]
  exact Nat.pow_le_pow_right (by decide) (by omega)

end BinaryFormat

end BusSchema
