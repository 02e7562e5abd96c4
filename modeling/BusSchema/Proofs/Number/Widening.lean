import BusSchema.Proofs.Number.WholeOrder
import BusSchema.Proofs.Wire.Integers
import BusSchema.Wire.Scalar

/-!
# Patterns of narrow formats as doubles

A format is widened exactly to one with a wider exponent field and a fraction field that is no
narrower (`BinaryFormat.Widens`): the numbers of the narrow format are short whole numbers times a
power of two (`BinaryFormat.exists_units_eq`), and such a number is not rounded by a format whose
fraction holds it (`BinaryFormat.units_unbounded`).  The widened number stands for the same value
(`BinaryFormat.units_convertMagnitude`), so that narrowing finds the pattern again
(`BinaryFormat.convert_convert`), and float patterns cross the wire
(`ScalarKind.floats_cross_wire`).
-/

namespace BusSchema

namespace BinaryFormat

variable {f s t : BinaryFormat} {m n : Nat}

/-! ## Exact rounding -/

theorem nearest_mul_right {num den c : Nat} (hc : 0 < c) :
    f.nearest (num * c) (den * c) = f.nearest num den := by
  have hden : ∀ shift, den * c * twoPow shift = den * twoPow shift * c :=
    fun shift => Nat.mul_right_comm den c _
  unfold nearest
  simp only [Nat.mul_div_mul_right _ _ hc, hden, roundHalfEven_mul_right hc]

/-- Below the first power of two that moves the exponent, a pattern counts units. -/
theorem units_of_lt (hn : n < 2 * twoPow f.fractionWidth) : f.units n = n := by
  rcases Nat.lt_or_ge n (twoPow f.fractionWidth) with hlt | hge
  · rw [units, Nat.div_eq_of_lt hlt, Nat.mod_eq_of_lt hlt]
    rfl
  · have hunits : f.units (0 * twoPow f.fractionWidth + n) = n * twoPow 0 :=
      units_mul_add_significand hge (Nat.le_of_lt hn)
    rwa [Nat.zero_mul, Nat.zero_add, twoPow_eq 0, Nat.pow_zero, Nat.mul_one] at hunits

theorem log2_significand_le {width significand : Nat} (hlt : significand < 2 * twoPow width)
    (k : Nat) : Nat.log2 (significand * twoPow k) ≤ width + k := by
  rcases Nat.eq_zero_or_pos significand with rfl | hpos
  · rw [Nat.zero_mul, Nat.log2_zero]
    exact Nat.zero_le _
  · have hdouble : 2 * twoPow width = 2 ^ (width + 1) := by rw [twoPow_eq, Nat.pow_succ']
    rw [hdouble] at hlt
    have hlog := (Nat.log2_lt (Nat.ne_of_gt hpos)).mpr hlt
    rw [log2_mul_twoPow (Nat.ne_of_gt hpos)]
    omega

theorem mul_twoPow_split {shift k : Nat} (hshift : shift ≤ k) (significand : Nat) :
    significand * twoPow k = significand * twoPow (k - shift) * twoPow shift := by
  rw [Nat.mul_assoc, twoPow_eq, twoPow_eq, twoPow_eq, ← Nat.pow_add, Nat.sub_add_cancel hshift]

/-- Zeros at the end of a number are cut off without loss. -/
theorem roundHalfEven_mul_twoPow {shift k : Nat} (hshift : shift ≤ k) (significand : Nat) :
    roundHalfEven (significand * twoPow k) (twoPow shift) = significand * twoPow (k - shift) := by
  rw [mul_twoPow_split hshift]
  exact roundHalfEven_mul (twoPow_pos shift) _

/-- A number whose digits fit into the fraction, but for zeros at its end, is not rounded. -/
theorem units_unbounded {significand k : Nat} (hlt : significand < 2 * twoPow f.fractionWidth) :
    f.units (f.unbounded (significand * twoPow k) 1) = significand * twoPow k := by
  rcases Nat.eq_zero_or_pos significand with rfl | hpos
  · simp [unbounded, roundHalfEven, units]
  have hlog := log2_significand_le hlt 0
  rw [twoPow_eq 0, Nat.pow_zero, Nat.mul_one, Nat.add_zero] at hlog
  have hlogs := log2_mul_twoPow (Nat.ne_of_gt hpos) k
  have hnonzero : significand * twoPow k ≠ 0 :=
    Nat.mul_ne_zero (Nat.ne_of_gt hpos) (Nat.ne_of_gt (twoPow_pos k))
  have hupper := roundHalfEven_le_significand (f := f) (significand * twoPow k) Nat.one_pos
  have hlower := @significand_le_roundHalfEven f 1 (significand * twoPow k) Nat.one_pos
  unfold unbounded
  simp only [Nat.div_one, Nat.one_mul, hlogs] at hupper hlower ⊢
  -- The last digits are cut off, as many as are zeros at least.
  have hshift : Nat.log2 significand + k - f.fractionWidth ≤ k := by omega
  generalize hs : Nat.log2 significand + k - f.fractionWidth = shift at hupper hlower hshift ⊢
  have hround := roundHalfEven_mul_twoPow hshift significand
  rcases Nat.eq_zero_or_pos shift with rfl | hmoved
  · have hsmall : significand * twoPow k < 2 * twoPow f.fractionWidth := by
      have hself : significand * twoPow k < 2 ^ (Nat.log2 (significand * twoPow k) + 1) :=
        Nat.lt_log2_self
      refine Nat.lt_of_lt_of_le hself ?_
      rw [hlogs, twoPow_eq, ← Nat.pow_succ']
      exact Nat.pow_le_pow_right (by decide) (by omega)
    rw [hround, Nat.zero_mul, Nat.zero_add, Nat.sub_zero, units_of_lt hsmall]
  · rw [units_mul_add_significand (hlower (by omega) hnonzero) hupper, hround,
      ← mul_twoPow_split hshift]

/-- The fraction of a number with few digits ends with zeros. -/
theorem dvd_unbounded {width significand k : Nat} (hwidth : width ≤ f.fractionWidth)
    (hlt : significand < 2 * twoPow width) (hk : f.fractionWidth ≤ k) :
    twoPow (f.fractionWidth - width) ∣ f.unbounded (significand * twoPow k) 1 := by
  rcases Nat.eq_zero_or_pos significand with rfl | hpos
  · simp [unbounded, roundHalfEven]
  have hlog := log2_significand_le hlt 0
  rw [twoPow_eq 0, Nat.pow_zero, Nat.mul_one, Nat.add_zero] at hlog
  have hlogs := log2_mul_twoPow (Nat.ne_of_gt hpos) k
  have hshift : Nat.log2 significand + k - f.fractionWidth ≤ k := by omega
  unfold unbounded
  simp only [Nat.div_one, Nat.one_mul, hlogs]
  rw [roundHalfEven_mul_twoPow hshift]
  refine Nat.dvd_add (Dvd.dvd.mul_left ?_ _) (Dvd.dvd.mul_left ?_ _)
  · exact Nat.pow_dvd_pow 2 (Nat.sub_le _ _)
  · exact Nat.pow_dvd_pow 2 (by omega)

/-- A number below the range of the format is not rounded to infinity. -/
theorem unbounded_lt_infinity (hlog : Nat.log2 n + 3 < twoPow f.exponentWidth + f.fractionWidth)
    (hexponent : 3 < twoPow f.exponentWidth) : f.unbounded n 1 < f.infinity := by
  have hupper := roundHalfEven_le_significand (f := f) n Nat.one_pos
  have hpos := twoPow_pos f.fractionWidth
  unfold unbounded infinity
  simp only [Nat.div_one] at hupper ⊢
  have hshift : Nat.log2 n - f.fractionWidth + 3 ≤ twoPow f.exponentWidth - 1 := by omega
  calc (Nat.log2 n - f.fractionWidth) * twoPow f.fractionWidth +
        roundHalfEven n (1 * twoPow (Nat.log2 n - f.fractionWidth))
      < (Nat.log2 n - f.fractionWidth + 3) * twoPow f.fractionWidth := by
        rw [Nat.add_mul]
        omega
    _ ≤ (twoPow f.exponentWidth - 1) * twoPow f.fractionWidth := Nat.mul_le_mul_right _ hshift

/-- A finite number is a whole number that fits into the fraction, times a power of two. -/
theorem exists_units_eq (hm : m < f.infinity) :
    ∃ significand < 2 * twoPow f.fractionWidth, ∃ k ≤ twoPow f.exponentWidth - 3,
      f.units m = significand * twoPow k := by
  have hfraction := Nat.mod_lt m (twoPow_pos f.fractionWidth)
  have hexponent : m / twoPow f.fractionWidth < twoPow f.exponentWidth - 1 :=
    (Nat.div_lt_iff_lt_mul (twoPow_pos _)).mpr hm
  by_cases hsmall : m / twoPow f.fractionWidth = 0
  · refine ⟨m % twoPow f.fractionWidth, by omega, 0, Nat.zero_le _, ?_⟩
    rw [units, if_pos hsmall, twoPow_eq 0, Nat.pow_zero, Nat.mul_one]
  · refine ⟨twoPow f.fractionWidth + m % twoPow f.fractionWidth, by omega,
      m / twoPow f.fractionWidth - 1, by omega, ?_⟩
    rw [units, if_neg hsmall]

/-! ## Widening -/

/-- The target has a wider exponent field than the source, and no narrower fraction field. -/
structure Widens (s t : BinaryFormat) : Prop where
  normal : 2 ≤ s.exponentWidth
  exponent : s.exponentWidth < t.exponentWidth
  fraction : s.fractionWidth ≤ t.fractionWidth

theorem half_widens_double : half.Widens double := ⟨by decide, by decide, by decide⟩

theorem single_widens_double : single.Widens double := ⟨by decide, by decide, by decide⟩

namespace Widens

/-- The unit of the source is a power of two of units of the target. -/
theorem unitExponent_le (h : s.Widens t) : s.unitExponent ≤ t.unitExponent := by
  have hexponents : twoPow (s.exponentWidth - 1) ≤ twoPow (t.exponentWidth - 1) :=
    Nat.pow_le_pow_right (by decide) (by have := h.exponent; omega)
  have hfraction := h.fraction
  unfold unitExponent
  omega

/-- The greatest number of the source, in units of the target, is far from its infinity. -/
theorem range (h : s.Widens t) :
    s.fractionWidth + (twoPow s.exponentWidth - 3) + (t.unitExponent - s.unitExponent) + 3 <
      twoPow t.exponentWidth + t.fractionWidth := by
  have hnormal := h.normal
  have hexponent := h.exponent
  have hfraction := h.fraction
  have hdouble : ∀ {k}, 0 < k → twoPow k = 2 * twoPow (k - 1) := fun hk => by
    rw [twoPow_eq, twoPow_eq, ← Nat.pow_succ', Nat.succ_eq_add_one, Nat.sub_add_cancel hk]
  have hsource := hdouble (k := s.exponentWidth) (by omega)
  have htarget := hdouble (k := t.exponentWidth) (by omega)
  have hleast : twoPow 1 ≤ twoPow (s.exponentWidth - 1) :=
    Nat.pow_le_pow_right (by decide) (by omega)
  have hless : twoPow (s.exponentWidth - 1) < twoPow (t.exponentWidth - 1) :=
    Nat.pow_lt_pow_right (by decide) (by omega)
  have htwo : twoPow 1 = 2 := rfl
  unfold unitExponent
  omega

end Widens

theorem Widens.split (h : s.Widens t) :
    twoPow t.unitExponent = twoPow (t.unitExponent - s.unitExponent) * twoPow s.unitExponent := by
  rw [twoPow_eq, twoPow_eq, twoPow_eq, ← Nat.pow_add, Nat.sub_add_cancel h.unitExponent_le]

/-- In units of the target, a finite number has as few digits as before, and is not rounded. -/
theorem exists_convertMagnitude_eq (h : s.Widens t) (hm : m < s.infinity) :
    ∃ significand < 2 * twoPow s.fractionWidth, ∃ k, t.unitExponent - s.unitExponent ≤ k ∧
      s.units m * twoPow (t.unitExponent - s.unitExponent) = significand * twoPow k ∧
      convertMagnitude s t m = t.unbounded (significand * twoPow k) 1 ∧
      convertMagnitude s t m < t.infinity := by
  have hrange := h.range
  obtain ⟨significand, hsignificand, k, hk, hunits⟩ := exists_units_eq hm
  have hvalue : s.units m * twoPow (t.unitExponent - s.unitExponent) =
      significand * twoPow (k + (t.unitExponent - s.unitExponent)) := by
    rw [hunits, Nat.mul_assoc, twoPow_eq, twoPow_eq, twoPow_eq, ← Nat.pow_add]
  have hlog := log2_significand_le hsignificand (k + (t.unitExponent - s.unitExponent))
  have hexponent : 3 < twoPow t.exponentWidth := by
    have hwidth : 3 ≤ t.exponentWidth := Nat.lt_of_le_of_lt h.normal h.exponent
    have hleast : twoPow 3 ≤ twoPow t.exponentWidth := Nat.pow_le_pow_right (by decide) hwidth
    exact Nat.lt_of_lt_of_le (by decide) hleast
  have hfinite := unbounded_lt_infinity (f := t)
    (n := significand * twoPow (k + (t.unitExponent - s.unitExponent))) (by omega) hexponent
  have hconvert : convertMagnitude s t m =
      t.unbounded (significand * twoPow (k + (t.unitExponent - s.unitExponent))) 1 := by
    have hscale : ∀ scaled, t.nearest (scaled * twoPow s.unitExponent) (twoPow s.unitExponent) =
        t.nearest scaled 1 := by
      intro scaled
      have hmul := @nearest_mul_right t scaled 1 _ (twoPow_pos s.unitExponent)
      rwa [Nat.one_mul] at hmul
    rw [convertMagnitude, if_neg (Nat.not_le.mpr hm), h.split, ← Nat.mul_assoc, hscale, hvalue]
    exact Nat.min_eq_left (Nat.le_of_lt hfinite)
  exact ⟨significand, hsignificand, _, Nat.le_add_left _ k, hvalue, hconvert, hconvert ▸ hfinite⟩

/-- A finite number keeps its value when it is widened. -/
theorem units_convertMagnitude (h : s.Widens t) (hm : m < s.infinity) :
    convertMagnitude s t m < t.infinity ∧
      t.units (convertMagnitude s t m) =
        s.units m * twoPow (t.unitExponent - s.unitExponent) := by
  have hfraction : twoPow s.fractionWidth ≤ twoPow t.fractionWidth :=
    Nat.pow_le_pow_right (by decide) h.fraction
  obtain ⟨significand, hsignificand, k, -, hvalue, hconvert, hfinite⟩ :=
    exists_convertMagnitude_eq h hm
  refine ⟨hfinite, ?_⟩
  rw [hconvert, hvalue, units_unbounded (by omega)]

/-- The fraction of a widened number ends with zeros. -/
theorem dvd_convertMagnitude (h : s.Widens t)
    (hunits : t.fractionWidth ≤ t.unitExponent - s.unitExponent) (m : Nat) :
    twoPow (t.fractionWidth - s.fractionWidth) ∣ convertMagnitude s t m := by
  rcases Nat.lt_or_ge m s.infinity with hm | hm
  · obtain ⟨significand, hsignificand, k, hk, -, hconvert, -⟩ := exists_convertMagnitude_eq h hm
    rw [hconvert]
    exact dvd_unbounded h.fraction hsignificand (Nat.le_trans hunits hk)
  · rw [convertMagnitude, if_pos hm, infinity]
    exact Dvd.dvd.mul_left (Nat.pow_dvd_pow 2 (Nat.sub_le _ _)) _

theorem convertMagnitude_le_infinity (m : Nat) : convertMagnitude s t m ≤ t.infinity := by
  unfold convertMagnitude
  split
  · exact Nat.le_refl _
  · exact Nat.min_le_right _ _

/-- Narrowing finds a widened magnitude again. -/
theorem convertMagnitude_convertMagnitude (h : s.Widens t) (hm : m ≤ s.infinity) :
    convertMagnitude t s (convertMagnitude s t m) = m := by
  rcases Nat.eq_or_lt_of_le hm with rfl | hlt
  · have hwide : convertMagnitude s t s.infinity = t.infinity := if_pos (Nat.le_refl _)
    rw [hwide]
    exact if_pos (Nat.le_refl _)
  · obtain ⟨hfinite, hunits⟩ := units_convertMagnitude h hlt
    calc convertMagnitude t s (convertMagnitude s t m)
        = s.nearest (t.units (convertMagnitude s t m) * twoPow s.unitExponent)
            (twoPow t.unitExponent) := if_neg (Nat.not_le.mpr hfinite)
      _ = s.nearest (s.units m * twoPow t.unitExponent) (1 * twoPow t.unitExponent) := by
          rw [hunits, Nat.mul_assoc, ← h.split, Nat.one_mul]
      _ = s.nearest (s.units m) 1 := nearest_mul_right (twoPow_pos _)
      _ = m := nearest_units hm

/-- A number is converted to a number. -/
theorem isNaN_convert {bits : Nat} (hnan : s.isNaN bits = false) :
    t.isNaN (s.convert t bits) = false := by
  have hle := convertMagnitude_le_infinity (s := s) (t := t) (s.magnitude bits)
  rw [convert, hnan, if_neg Bool.false_ne_true, isNaN,
    magnitude_pattern (Nat.lt_of_le_of_lt hle (infinity_lt_twoPow t))]
  exact decide_eq_false (Nat.not_lt.mpr hle)

theorem convert_lt (hnan : s.isNaN m = false) : s.convert t m < 2 * twoPow t.magnitudeWidth := by
  rw [convert, hnan, if_neg Bool.false_ne_true]
  exact pattern_lt (Nat.lt_of_le_of_lt (convertMagnitude_le_infinity _) (infinity_lt_twoPow t))

theorem dvd_convert (h : s.Widens t) (hunits : t.fractionWidth ≤ t.unitExponent - s.unitExponent)
    {bits : Nat} (hnan : s.isNaN bits = false) :
    twoPow (t.fractionWidth - s.fractionWidth) ∣ s.convert t bits := by
  have hmagnitude := dvd_convertMagnitude h hunits (s.magnitude bits)
  have hwidth : t.fractionWidth - s.fractionWidth ≤ t.magnitudeWidth := by
    unfold magnitudeWidth
    omega
  rw [convert, hnan, if_neg Bool.false_ne_true, pattern]
  split
  · exact Nat.dvd_add (Nat.pow_dvd_pow 2 hwidth) hmagnitude
  · exact hmagnitude

/-- Narrowing finds a widened pattern again. -/
theorem convert_convert (h : s.Widens t) {bits : Nat} (hbits : bits < 2 * twoPow s.magnitudeWidth)
    (hnan : s.isNaN bits = false) : t.convert s (s.convert t bits) = bits := by
  have hm : s.magnitude bits ≤ s.infinity := Nat.not_lt.mp (of_decide_eq_false hnan)
  have hwide := convertMagnitude_le_infinity (s := s) (t := t) (s.magnitude bits)
  have hwidth := Nat.lt_of_le_of_lt hwide (infinity_lt_twoPow t)
  rw [convert, isNaN_convert hnan, if_neg Bool.false_ne_true, convert, hnan,
    if_neg Bool.false_ne_true, isNegative_pattern hwidth, magnitude_pattern hwidth,
    convertMagnitude_convertMagnitude h hm, pattern_isNegative_magnitude hbits]

end BinaryFormat

namespace Double

/-- A pattern of another format that stands for a number stands for a double that is one. -/
theorem isNaN_ofFormat {f : BinaryFormat} {bits : Nat} (hnan : f.isNaN bits = false) :
    (ofFormat f bits).isNaN = false := by
  rw [isNaN, ofFormat, toNat_bits_ofBits (BinaryFormat.convert_lt hnan)]
  exact BinaryFormat.isNaN_convert hnan

/-- A number of 16 bits stands for a double with a short fraction. -/
theorem isShort_ofFormat_half {bits : Nat} (hnan : BinaryFormat.half.isNaN bits = false) :
    (ofFormat .half bits).IsShort := by
  have hzeros := BinaryFormat.dvd_convert BinaryFormat.half_widens_double (by decide) hnan
  rw [IsShort, ofFormat, toNat_bits_ofBits (BinaryFormat.convert_lt hnan)]
  exact Nat.mod_eq_zero_of_dvd ((Nat.pow_dvd_pow 2 (by decide)).trans hzeros)

/-- The pattern of a narrower format comes back from the double that it stands for. -/
theorem toFormat_ofFormat {f : BinaryFormat} (h : f.Widens .double) {bits : Nat}
    (hbits : bits < 2 * twoPow f.magnitudeWidth) (hnan : f.isNaN bits = false) :
    toFormat f (ofFormat f bits) = bits := by
  rw [toFormat, ofFormat, toNat_bits_ofBits (BinaryFormat.convert_lt hnan)]
  exact BinaryFormat.convert_convert h hbits hnan

end Double

namespace HalfConversion

/-- Conversions of the standard narrow a number to the pattern that it was widened from. -/
theorem IsStandard.narrow_widen [HalfConversion] (h : IsStandard) {bits : UInt16}
    (hnan : BinaryFormat.half.isNaN bits.toNat = false) : narrow (widen bits) = bits := by
  apply UInt16.toNat_inj.mp
  rw [h.widen_eq bits hnan,
    h.narrow_eq _ (Double.isNaN_ofFormat hnan) (Double.isShort_ofFormat_half hnan)]
  exact Double.toFormat_ofFormat BinaryFormat.half_widens_double bits.toNat_lt hnan

theorem isStandard_nearest : nearest.IsStandard := by
  refine ⟨fun bits _ => rfl, fun x hx _ => ?_⟩
  exact UInt16.toNat_ofNat_of_lt' (BinaryFormat.convert_lt (t := .half) hx)

end HalfConversion

namespace ScalarKind

section Conversion

variable [HalfConversion]

/--
A raw pattern of 32 bits that stands for a number crosses the wire as a double, zeros of both signs,
subnormal numbers and infinities included, and so does each pattern of 64 bits.  A number of 16 bits
does so if these are converted as the standard prescribes.
-/
theorem floats_cross_wire :
    (∀ raw < twoPow 32, BinaryFormat.single.isNaN raw = false →
      float.encode 32 (float.decode 32 raw) = raw) ∧
    (HalfConversion.IsStandard → ∀ raw < twoPow 16, BinaryFormat.half.isNaN raw = false →
      float.encode 16 (float.decode 16 raw) = raw) ∧
    ∀ raw < twoPow 64, float.encode 64 (float.decode 64 raw) = raw := by
  refine ⟨fun raw hraw hnan => ?_, fun hhalf raw hraw hnan => ?_, fun raw hraw => ?_⟩
  · have hback : Double.toFormat .single (Double.ofFormat .single raw) = raw :=
      Double.toFormat_ofFormat BinaryFormat.single_widens_double hraw hnan
    calc float.encode 32 (float.decode 32 raw)
        = lowBits 32 (Double.toFormat .single (Double.ofFormat .single (raw % twoPow 32))) := rfl
      _ = raw := by
        rw [Nat.mod_eq_of_lt hraw, hback, lowBits_eq_mod (by decide), Nat.mod_eq_of_lt hraw]
  · have hbits : (UInt16.ofNat raw).toNat = raw := UInt16.toNat_ofNat_of_lt' hraw
    have hnumber : BinaryFormat.half.isNaN (UInt16.ofNat raw).toNat = false := by rwa [hbits]
    have hback := hhalf.narrow_widen hnumber
    calc float.encode 16 (float.decode 16 raw)
        = lowBits 16 (HalfConversion.narrow (HalfConversion.widen (UInt16.ofNat raw))).toNat := rfl
      _ = raw := by
        rw [hback, hbits, lowBits_eq_mod (by decide), Nat.mod_eq_of_lt hraw]
  · calc float.encode 64 (float.decode 64 raw)
        = lowBits 64 (Double.ofBits raw).bits.toNat := rfl
      _ = raw := by
        rw [Double.toNat_bits_ofBits hraw, lowBits_eq_mod (by decide), Nat.mod_eq_of_lt hraw]

end Conversion

open scoped HalfConversion in
/--
The least subnormal number of 32 bits, the negative infinity of 16 bits, and a pattern of 64 bits
that stands for no number.
-/
theorem floats_cross_wire_at_limits :
    BinaryFormat.single.isNaN 1 = false ∧ float.encode 32 (float.decode 32 1) = 1 ∧
      BinaryFormat.half.isNaN 64512 = false ∧
        float.encode 16 (float.decode 16 64512) = 64512 ∧
      BinaryFormat.double.isNaN (twoPow 64 - 1) = true ∧
        float.encode 64 (float.decode 64 (twoPow 64 - 1)) = twoPow 64 - 1 :=
  ⟨by decide, floats_cross_wire.1 1 (by decide) (by decide), by decide,
    floats_cross_wire.2.1 HalfConversion.isStandard_nearest 64512 (by decide) (by decide),
    by decide,
    floats_cross_wire.2.2 (twoPow 64 - 1) (by decide)⟩

end ScalarKind

end BusSchema
