import BusSchema.Number.Format
import Mathlib.Data.Nat.Log
import Mathlib.Tactic.Ring

/-!
# Rounding to a binary format

`roundHalfEven` is described by the bounds of its results (`roundHalfEven_le_iff`), from which its
monotonicity follows.  Rounding to the patterns of a format is monotone too
(`BinaryFormat.unbounded_mono`), so a comparison of rounded numbers is decided at the powers of two,
where the distance between neighbouring patterns changes: `BinaryFormat.wholePattern_le_pow_iff`
says which whole numbers round to at most a power of two, and `BinaryFormat.wholePattern_lt_pow_iff`
which ones round to less.
-/

namespace BusSchema

theorem twoPow_eq (k : Nat) : twoPow k = 2 ^ k := rfl

theorem twoPow_pos (k : Nat) : 0 < twoPow k := Nat.two_pow_pos k

theorem log2_mul_twoPow {n : Nat} (hn : n ≠ 0) (k : Nat) :
    Nat.log2 (n * twoPow k) = Nat.log2 n + k := by
  have hpos := twoPow_pos k
  have hlower : 2 ^ Nat.log2 n * twoPow k ≤ n * twoPow k :=
    Nat.mul_le_mul_right _ (Nat.log2_self_le hn)
  have hupper : n * twoPow k < 2 ^ (Nat.log2 n + 1) * twoPow k :=
    Nat.mul_lt_mul_of_pos_right Nat.lt_log2_self hpos
  rw [twoPow_eq, ← Nat.pow_add] at hlower hupper
  rw [Nat.log2_eq_iff (Nat.mul_ne_zero hn (Nat.ne_of_gt hpos))]
  refine ⟨hlower, ?_⟩
  rwa [Nat.add_right_comm]

theorem log2_twoPow_add {k n : Nat} (hn : n < twoPow k) : Nat.log2 (twoPow k + n) = k := by
  have hpos := twoPow_pos k
  rw [Nat.log2_eq_iff (by omega), Nat.pow_succ, ← twoPow_eq]
  omega

/-! ## Quotients -/

section Quotient

variable {num den : Nat}

/-- A result is at most `k` if the ratio is below `k + 1 / 2`, or equal to it and `k` is even. -/
theorem roundHalfEven_le_iff (hden : 0 < den) {k : Nat} :
    roundHalfEven num den ≤ k ↔
      2 * num < (2 * k + 1) * den ∨ 2 * num = (2 * k + 1) * den ∧ k % 2 = 0 := by
  have hsplit : den * (num / den) + num % den = num := Nat.div_add_mod num den
  have hrest : num % den < den := Nat.mod_lt num hden
  unfold roundHalfEven
  simp only
  generalize num / den = q at hsplit ⊢
  generalize num % den = r at hsplit hrest ⊢
  rcases Nat.lt_trichotomy q k with hlt | rfl | hgt
  · have hfits : den * (q + 1) ≤ den * k := Nat.mul_le_mul_left den hlt
    have hbelow : 2 * num < (2 * k + 1) * den := by
      rw [Nat.mul_succ] at hfits
      have hk : (2 * k + 1) * den = 2 * (den * k) + den := by ring
      omega
    have hresult : q + 1 ≤ k := hlt
    constructor
    · intro _
      exact Or.inl hbelow
    · intro _
      split_ifs <;> omega
  · have hq : (2 * q + 1) * den = 2 * (den * q) + den := by ring
    rw [hq]
    split_ifs <;> omega
  · have hfits : den * (k + 1) ≤ den * q := Nat.mul_le_mul_left den hgt
    have habove : (2 * k + 1) * den < 2 * num := by
      rw [Nat.mul_succ] at hfits
      have hk : (2 * k + 1) * den = 2 * (den * k) + den := by ring
      omega
    constructor
    · intro hle
      split_ifs at hle <;> omega
    · intro hle
      omega

theorem roundHalfEven_mono (hden : 0 < den) {m n : Nat} (h : m ≤ n) :
    roundHalfEven m den ≤ roundHalfEven n den := by
  rcases Nat.eq_or_lt_of_le h with rfl | hlt
  · exact Nat.le_refl _
  · have hself := (roundHalfEven_le_iff hden).mp (Nat.le_refl (roundHalfEven n den))
    refine (roundHalfEven_le_iff hden).mpr (Or.inl ?_)
    rcases hself with hbelow | ⟨hhalf, -⟩
    · omega
    · omega

theorem roundHalfEven_mul (hden : 0 < den) (k : Nat) : roundHalfEven (k * den) den = k := by
  unfold roundHalfEven
  simp only [Nat.mul_mod_left, Nat.mul_zero, hden, if_true]
  exact Nat.mul_div_cancel k hden

theorem roundHalfEven_mul_right {c : Nat} (hc : 0 < c) :
    roundHalfEven (num * c) (den * c) = roundHalfEven num den := by
  have hdouble : ∀ r, 2 * (r * c) = 2 * r * c := fun r => (Nat.mul_assoc 2 r c).symm
  unfold roundHalfEven
  simp only [Nat.mul_div_mul_right _ _ hc, Nat.mul_mod_mul_right, hdouble,
    Nat.mul_lt_mul_right hc]

/-- A ratio with a quotient of few digits stays below the next power of two or reaches it. -/
theorem roundHalfEven_le_of_div_lt (hden : 0 < den) {k : Nat} (h : num / den < k) :
    roundHalfEven num den ≤ k := by
  have hnum : num < k * den := (Nat.div_lt_iff_lt_mul hden).mp h
  refine (roundHalfEven_le_iff hden).mpr (Or.inl ?_)
  have hk : (2 * k + 1) * den = 2 * (k * den) + den := by ring
  omega

theorem le_roundHalfEven_of_le_div (hden : 0 < den) {k : Nat} (h : k ≤ num / den) :
    k ≤ roundHalfEven num den := by
  have hnum : k * den ≤ num := (Nat.le_div_iff_mul_le hden).mp h
  calc k = roundHalfEven (k * den) den := (roundHalfEven_mul hden k).symm
    _ ≤ roundHalfEven num den := roundHalfEven_mono hden hnum

end Quotient

namespace BinaryFormat

variable (f : BinaryFormat)

/-! ## Patterns -/

/-- The pattern before it is cut off at infinity. -/
def unbounded (num den : Nat) : Nat :=
  let shift := Nat.log2 (num / den) - f.fractionWidth
  shift * twoPow f.fractionWidth + roundHalfEven num (den * twoPow shift)

variable {f} {den : Nat}

/-- The rounded quotient has as many digits as the fraction, or is the next power of two. -/
theorem roundHalfEven_le_significand (num : Nat) (hden : 0 < den) :
    let shift := Nat.log2 (num / den) - f.fractionWidth
    roundHalfEven num (den * twoPow shift) ≤ 2 * twoPow f.fractionWidth := by
  intro shift
  refine roundHalfEven_le_of_div_lt (Nat.mul_pos hden (twoPow_pos _)) ?_
  have hquotient : num / den < 2 ^ (Nat.log2 (num / den) + 1) := Nat.lt_log2_self
  rw [← Nat.div_div_eq_div_mul, Nat.div_lt_iff_lt_mul (twoPow_pos _)]
  refine Nat.lt_of_lt_of_le hquotient ?_
  have hsum : 2 * twoPow f.fractionWidth * twoPow shift =
      2 ^ (f.fractionWidth + 1 + shift) := by
    rw [twoPow_eq, twoPow_eq]
    ring
  rw [hsum]
  exact Nat.pow_le_pow_right (by decide) (by omega)

theorem significand_le_roundHalfEven {num : Nat} (hden : 0 < den)
    (hlarge : f.fractionWidth ≤ Nat.log2 (num / den)) (hpos : num / den ≠ 0) :
    let shift := Nat.log2 (num / den) - f.fractionWidth
    twoPow f.fractionWidth ≤ roundHalfEven num (den * twoPow shift) := by
  intro shift
  refine le_roundHalfEven_of_le_div (Nat.mul_pos hden (twoPow_pos _)) ?_
  have hquotient : 2 ^ Nat.log2 (num / den) ≤ num / den := Nat.log2_self_le hpos
  rw [← Nat.div_div_eq_div_mul, Nat.le_div_iff_mul_le (twoPow_pos _)]
  refine Nat.le_trans (Nat.le_of_eq ?_) hquotient
  rw [twoPow_eq, twoPow_eq, ← Nat.pow_add]
  congr 1
  omega

/-- A larger number does not have a smaller pattern. -/
theorem unbounded_mono (hden : 0 < den) {m n : Nat} (h : m ≤ n) :
    f.unbounded m den ≤ f.unbounded n den := by
  have hquotient : m / den ≤ n / den := Nat.div_le_div_right h
  have hlog : Nat.log2 (m / den) ≤ Nat.log2 (n / den) := by
    rw [Nat.log2_eq_log_two, Nat.log2_eq_log_two]
    exact Nat.log_mono_right hquotient
  have hm := roundHalfEven_le_significand (f := f) m hden
  unfold unbounded
  simp only at hm ⊢
  generalize hs : Nat.log2 (m / den) - f.fractionWidth = s at hm ⊢
  generalize ht : Nat.log2 (n / den) - f.fractionWidth = t
  have hst : s ≤ t := by omega
  rcases Nat.eq_or_lt_of_le hst with rfl | hlt
  · exact Nat.add_le_add_left
      (roundHalfEven_mono (Nat.mul_pos hden (twoPow_pos s)) h) _
  · -- A larger shift makes up for the largest rounded quotient that `m` may have.
    have hnonzero : n / den ≠ 0 := by
      intro hzero
      rw [hzero, Nat.log2_zero] at ht
      omega
    have hlower := significand_le_roundHalfEven (f := f) hden (by omega) hnonzero
    rw [ht] at hlower
    have hstep : (s + 1) * twoPow f.fractionWidth ≤ t * twoPow f.fractionWidth :=
      Nat.mul_le_mul_right _ hlt
    rw [Nat.succ_mul] at hstep
    omega

/-! ## Whole numbers -/

variable (f)

/-- The pattern of a whole number before it is cut off at infinity. -/
def wholePattern (n : Nat) : Nat := f.unbounded (n * twoPow f.unitExponent) 1

variable {f} {n : Nat}

theorem wholePattern_mono {m n : Nat} (h : m ≤ n) : f.wholePattern m ≤ f.wholePattern n :=
  unbounded_mono Nat.one_pos (Nat.mul_le_mul_right _ h)

theorem wholePattern_zero : f.wholePattern 0 = 0 := by
  unfold wholePattern unbounded
  simp [roundHalfEven]

/--
The exponent field counts from that of the number one, and the fraction field is what the number is
above a power of two, rounded.
-/
theorem wholePattern_eq (hn : n ≠ 0) :
    f.wholePattern n =
      (Nat.log2 n + (twoPow (f.exponentWidth - 1) - 2)) * twoPow f.fractionWidth +
        roundHalfEven (n * twoPow f.fractionWidth) (twoPow (Nat.log2 n)) := by
  have hlog := log2_mul_twoPow hn f.unitExponent
  have hunit : f.unitExponent = twoPow (f.exponentWidth - 1) - 2 + f.fractionWidth := rfl
  have hshift : Nat.log2 n + f.unitExponent - f.fractionWidth =
      Nat.log2 n + (twoPow (f.exponentWidth - 1) - 2) := by omega
  unfold wholePattern unbounded
  simp only [Nat.div_one, Nat.one_mul, hlog, hshift]
  congr 1
  rw [hunit]
  generalize twoPow (f.exponentWidth - 1) - 2 = bias
  have hnum : n * twoPow (bias + f.fractionWidth) = n * twoPow f.fractionWidth * twoPow bias := by
    rw [twoPow_eq, twoPow_eq, twoPow_eq]
    ring
  have hden : twoPow (Nat.log2 n + bias) = twoPow (Nat.log2 n) * twoPow bias := by
    rw [twoPow_eq, twoPow_eq, twoPow_eq]
    ring
  rw [hnum, hden, roundHalfEven_mul_right (twoPow_pos bias)]

theorem wholePattern_pow (k : Nat) :
    f.wholePattern (2 ^ k) =
      (k + (twoPow (f.exponentWidth - 1) - 2)) * twoPow f.fractionWidth +
        twoPow f.fractionWidth := by
  rw [wholePattern_eq (Nat.ne_of_gt (Nat.two_pow_pos k)), Nat.log2_two_pow, Nat.mul_comm (2 ^ k),
    ← twoPow_eq k, roundHalfEven_mul (twoPow_pos k)]

/--
Above a power of two, what a number exceeds it by is dropped up to half of the distance between
neighbouring patterns.
-/
theorem wholePattern_le_pow_iff (hfraction : 0 < f.fractionWidth) {k : Nat} :
    f.wholePattern n ≤ f.wholePattern (2 ^ k) ↔
      (n - 2 ^ k) * 2 ^ (f.fractionWidth + 1) ≤ 2 ^ k := by
  rcases Nat.le_total n (2 ^ k) with hle | hge
  · have hzero : n - 2 ^ k = 0 := Nat.sub_eq_zero_of_le hle
    simp [hzero, wholePattern_mono hle]
  rcases Nat.lt_or_ge n (2 ^ (k + 1)) with hlt | hfar
  · have hn : n ≠ 0 := Nat.ne_of_gt (Nat.lt_of_lt_of_le (Nat.two_pow_pos k) hge)
    have hlog : Nat.log2 n = k := (Nat.log2_eq_iff hn).mpr ⟨hge, hlt⟩
    have heven : twoPow f.fractionWidth % 2 = 0 := by
      obtain ⟨w, hw⟩ := Nat.exists_eq_succ_of_ne_zero (Nat.ne_of_gt hfraction)
      rw [hw, twoPow_eq, Nat.pow_succ]
      exact Nat.mul_mod_left _ _
    rw [wholePattern_eq hn, hlog, wholePattern_pow, Nat.add_le_add_iff_left,
      roundHalfEven_le_iff (twoPow_pos k)]
    obtain ⟨excess, rfl⟩ := Nat.exists_eq_add_of_le hge
    rw [Nat.add_sub_cancel_left, twoPow_eq, twoPow_eq] at *
    have hleft : 2 * ((2 ^ k + excess) * 2 ^ f.fractionWidth) =
        2 * (2 ^ f.fractionWidth * 2 ^ k) + excess * 2 ^ (f.fractionWidth + 1) := by ring
    have hright : (2 * 2 ^ f.fractionWidth + 1) * 2 ^ k =
        2 * (2 ^ f.fractionWidth * 2 ^ k) + 2 ^ k := by ring
    rw [hleft, hright]
    omega
  · -- Two powers of two apart the patterns differ, and so does the excess from a half.
    have habove : f.wholePattern (2 ^ k) < f.wholePattern n := by
      refine Nat.lt_of_lt_of_le ?_ (wholePattern_mono hfar)
      rw [wholePattern_pow, wholePattern_pow, Nat.add_lt_add_iff_right]
      exact Nat.mul_lt_mul_of_pos_right (by omega) (twoPow_pos _)
    have hexcess : 2 ^ k < (n - 2 ^ k) * 2 ^ (f.fractionWidth + 1) := by
      have hdouble : 2 ^ (k + 1) = 2 * 2 ^ k := by ring
      have hat : 2 ^ k ≤ n - 2 ^ k := by omega
      calc 2 ^ k < 2 ^ k * 2 ^ (f.fractionWidth + 1) :=
            (Nat.lt_mul_iff_one_lt_right (Nat.two_pow_pos k)).mpr (Nat.one_lt_two_pow (by omega))
        _ ≤ (n - 2 ^ k) * 2 ^ (f.fractionWidth + 1) := Nat.mul_le_mul_right _ hat
    omega

/-- A number between two powers of two is below the pattern of the upper one. -/
theorem wholePattern_lt_pow_succ_iff {j : Nat} (hge : 2 ^ j ≤ n) (hlt : n < 2 ^ (j + 1)) :
    f.wholePattern n < f.wholePattern (2 ^ (j + 1)) ↔
      2 ^ (j + 1) < (2 ^ (j + 1) - n) * 2 ^ (f.fractionWidth + 2) := by
  have hn : n ≠ 0 := Nat.ne_of_gt (Nat.lt_of_lt_of_le (Nat.two_pow_pos j) hge)
  have hlog : Nat.log2 n = j := (Nat.log2_eq_iff hn).mpr ⟨hge, hlt⟩
  have hpos := twoPow_pos f.fractionWidth
  have hupper : f.wholePattern (2 ^ (j + 1)) =
      (j + (twoPow (f.exponentWidth - 1) - 2)) * twoPow f.fractionWidth +
        2 * twoPow f.fractionWidth := by
    rw [wholePattern_pow]
    ring
  -- The largest significand is odd, so nothing halfway above it is rounded down to it.
  have hround : roundHalfEven (n * twoPow f.fractionWidth) (twoPow j) <
      2 * twoPow f.fractionWidth ↔
        2 * (n * twoPow f.fractionWidth) < (4 * twoPow f.fractionWidth - 1) * twoPow j := by
    have hodd : (2 * twoPow f.fractionWidth - 1) % 2 ≠ 0 := by omega
    have hcoefficient : 2 * (2 * twoPow f.fractionWidth - 1) + 1 =
        4 * twoPow f.fractionWidth - 1 := by omega
    rw [← Nat.le_sub_one_iff_lt (by omega), roundHalfEven_le_iff (twoPow_pos j), hcoefficient]
    simp [hodd]
  obtain ⟨missing, hmissing⟩ := Nat.exists_eq_add_of_le (Nat.le_of_lt hlt)
  rw [wholePattern_eq hn, hlog, hupper, Nat.add_lt_add_iff_left, hround, hmissing,
    Nat.add_sub_cancel_left, Nat.sub_mul, twoPow_eq, twoPow_eq]
  have hwhole : 4 * 2 ^ f.fractionWidth * 2 ^ j =
      2 * (n * 2 ^ f.fractionWidth) + 2 * (missing * 2 ^ f.fractionWidth) := by
    calc 4 * 2 ^ f.fractionWidth * 2 ^ j = 2 * (2 ^ (j + 1) * 2 ^ f.fractionWidth) := by ring
      _ = 2 * ((n + missing) * 2 ^ f.fractionWidth) := by rw [hmissing]
      _ = _ := by ring
  have hgap : missing * 2 ^ (f.fractionWidth + 2) =
      2 * (2 * (missing * 2 ^ f.fractionWidth)) := by ring
  have hdouble : 2 ^ (j + 1) = 2 * 2 ^ j := by ring
  rw [hwhole, hgap, ← hmissing, hdouble]
  omega

/-- Below a power of two the distance between neighbouring patterns is half of that above it. -/
theorem wholePattern_lt_pow_iff {k : Nat} :
    f.wholePattern n < f.wholePattern (2 ^ k) ↔
      2 ^ k < (2 ^ k - n) * 2 ^ (f.fractionWidth + 2) := by
  rcases Nat.lt_or_ge n (2 ^ k) with hlt | hge
  · cases k with
    | zero =>
      have hzero : n = 0 := by simpa using hlt
      have hpos := twoPow_pos f.fractionWidth
      have hpattern : f.wholePattern 0 < f.wholePattern (2 ^ 0) := by
        rw [wholePattern_zero, wholePattern_pow]
        omega
      rw [hzero]
      exact iff_of_true hpattern (by simp)
    | succ j =>
      rcases Nat.lt_or_ge n (2 ^ j) with hfar | hnear
      · have hpattern : f.wholePattern n < f.wholePattern (2 ^ (j + 1)) := by
          refine Nat.lt_of_le_of_lt (wholePattern_mono (Nat.le_of_lt hfar)) ?_
          rw [wholePattern_pow, wholePattern_pow, Nat.add_lt_add_iff_right]
          exact Nat.mul_lt_mul_of_pos_right (by omega) (twoPow_pos _)
        refine iff_of_true hpattern ?_
        have hdouble : 2 ^ (j + 1) = 2 * 2 ^ j := by ring
        have hat : 2 ^ j ≤ 2 ^ (j + 1) - n := by omega
        have hpos := Nat.two_pow_pos j
        calc 2 ^ (j + 1) < 2 ^ j * 2 ^ 2 := by omega
          _ ≤ 2 ^ j * 2 ^ (f.fractionWidth + 2) :=
            Nat.mul_le_mul_left _ (Nat.pow_le_pow_right (by decide) (by omega))
          _ ≤ (2 ^ (j + 1) - n) * 2 ^ (f.fractionWidth + 2) := Nat.mul_le_mul_right _ hat
      · exact wholePattern_lt_pow_succ_iff hnear hlt
  · have hzero : 2 ^ k - n = 0 := Nat.sub_eq_zero_of_le hge
    simp [hzero, Nat.not_lt.mpr (wholePattern_mono hge)]

end BinaryFormat

end BusSchema
