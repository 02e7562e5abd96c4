import BusSchema.Proofs.Number.Exact
import BusSchema.Wire.Scalar
import Mathlib.Data.Int.ModEq

/-!
# Integers on the wire

A pattern is read as the only integer of the signed range that differs from it by a multiple of the
number of patterns (`eq_signExtend_iff`), so that the low bits of an integer are read back as it was.
An integer that a double can be and a width can hold thus survives the wire.

In the other direction a pattern is first rounded to a double.  Below 54 bits nothing is lost, one
bit more if there is a sign.  At 64 bits, a pattern may be rounded up to the power of two behind the
range, which is cut off again when the double is written; what it is read as has not changed then
(`ScalarKind.integers_cross_wire`).
-/

namespace BusSchema

/-- The integer is one of those that a two's complement number of the width can be. -/
def FitsSigned (width : Nat) (v : Int) : Prop :=
  -(twoPow (width - 1) : Int) ≤ v ∧ v < twoPow (width - 1)

/-- The remainder nearest to zero of a multiple, by the same multiple of an even number. -/
theorem bmod_mul_right (a : Int) {half c : Nat} (hhalf : 0 < half) (hc : 0 < c) :
    Int.bmod (a * c) (2 * half * c) = Int.bmod a (2 * half) * c := by
  have hself := (Int.bmod_eq_iff (by omega)).mp (rfl : Int.bmod a (2 * half) = _)
  generalize Int.bmod a (2 * half) = v at hself
  obtain ⟨hlower, hupper, hdvd⟩ := hself
  have hdouble : ((2 * half * c : Nat) : Int) = 2 * (half * c : Nat) := by push_cast; ring
  refine (Int.bmod_eq_iff (Nat.mul_pos (by omega) hc)).mpr ⟨?_, ?_, ?_⟩
  · have hmul : -(half : Int) * c ≤ v * c :=
      Int.mul_le_mul_of_nonneg_right (by omega) (Int.natCast_nonneg c)
    rw [Int.neg_mul, ← Int.natCast_mul] at hmul
    omega
  · have hmul : v * c < half * c :=
      Int.mul_lt_mul_of_pos_right (by omega) (Int.natCast_pos.mpr hc)
    rw [← Int.natCast_mul] at hmul
    omega
  · rw [Int.natCast_mul, ← Int.sub_mul]
    exact Int.mul_dvd_mul_right _ hdvd

section Width

variable {width : Nat} (hpos : 0 < width) (hmax : width ≤ maxValueWidth)

include hpos in
theorem twoPow_eq_double : twoPow width = 2 * twoPow (width - 1) := by
  obtain ⟨rest, rfl⟩ := Nat.exists_eq_succ_of_ne_zero (Nat.ne_of_gt hpos)
  exact Nat.pow_succ'

include hpos hmax in
/-- Moving a pattern to the upper end and back leaves the remainder that is nearest to zero. -/
theorem signExtend_eq_bmod (raw : Nat) : signExtend raw width = Int.bmod raw (twoPow width) := by
  unfold signExtend
  by_cases hfull : maxValueWidth ≤ width
  · rw [if_pos (Or.inr hfull), Nat.le_antisymm hmax hfull]
    rfl
  rw [if_neg (by omega)]
  have hsplit : twoPow maxValueWidth = twoPow width * 2 ^ (maxValueWidth - width) := by
    rw [twoPow_eq, twoPow_eq, ← Nat.pow_add, Nat.add_sub_cancel' hmax]
  generalize maxValueWidth - width = shift at hsplit
  have hmoved : signed64 (raw <<< shift) = Int.bmod raw (twoPow width) * (2 ^ shift : Nat) := by
    rw [signed64, hsplit, Nat.shiftLeft_eq, twoPow_eq_double hpos, Int.natCast_mul]
    exact bmod_mul_right raw (twoPow_pos _) (Nat.two_pow_pos shift)
  rw [hmoved, Int.shiftRight_eq_div_pow]
  exact Int.mul_ediv_cancel _ (by exact_mod_cast Nat.ne_of_gt (Nat.two_pow_pos shift))

include hpos hmax in
/-- What a pattern is read as is in the range, is congruent to the pattern and is alone in that. -/
theorem eq_signExtend_iff {raw : Nat} {v : Int} :
    v = signExtend raw width ↔ FitsSigned width v ∧ v ≡ raw [ZMOD twoPow width] := by
  have hhalf := twoPow_eq_double hpos
  rw [signExtend_eq_bmod hpos hmax, eq_comm, Int.bmod_eq_iff (twoPow_pos width), FitsSigned,
    Int.modEq_comm, Int.modEq_iff_dvd, and_assoc]
  have hlower : (twoPow width : Int) / 2 = twoPow (width - 1) := by omega
  have hupper : ((twoPow width : Int) + 1) / 2 = twoPow (width - 1) := by omega
  rw [hlower, hupper]

include hpos hmax in
theorem fitsSigned_signExtend (raw : Nat) : FitsSigned width (signExtend raw width) :=
  ((eq_signExtend_iff hpos hmax).mp rfl).1

include hpos hmax in
theorem signExtend_modEq (raw : Nat) : signExtend raw width ≡ raw [ZMOD twoPow width] :=
  ((eq_signExtend_iff hpos hmax).mp rfl).2

include hpos in
theorem twoPow_pred_le {k : Nat} (hk : width ≤ k + 1) : twoPow (width - 1) ≤ twoPow k :=
  Nat.pow_le_pow_right (by decide) (by omega)

theorem toUnsigned64_lt (x : Double) : x.toUnsigned64 < twoPow 64 := by
  have hlimit := twoPow_pos 64
  unfold Double.toUnsigned64
  split_ifs <;> omega

theorem fitsSigned_toSigned64 (x : Double) : FitsSigned 64 x.toSigned64 := by
  have hlimit := twoPow_pos 63
  have hwidth : twoPow (64 - 1) = twoPow 63 := rfl
  rw [FitsSigned, hwidth]
  unfold Double.toSigned64
  split_ifs <;> omega

/-! ## Encoding and decoding -/

namespace ScalarKind

open Double

section Conversion

variable [HalfConversion] {x : Double} {v : Int}

include hmax

theorem encode_unsigned : unsigned.encode width x = x.toUnsigned64 % twoPow width :=
  lowBits_eq_mod hmax _

theorem encode_signed : (signed.encode width x : Int) = x.toSigned64 % twoPow width := by
  have hlimit : (0 : Int) < (twoPow maxValueWidth : Nat) :=
    Int.natCast_pos.mpr (twoPow_pos maxValueWidth)
  have hdvd : (twoPow width : Int) ∣ (twoPow maxValueWidth : Nat) :=
    Int.natCast_dvd_natCast.mpr (Nat.pow_dvd_pow 2 hmax)
  rw [encode, lowBits_eq_mod hmax, pattern, Int.natCast_mod,
    Int.toNat_of_nonneg (Int.emod_nonneg _ (Int.ne_of_gt hlimit)), Int.emod_emod_of_dvd _ hdvd]

theorem decode_encode_unsigned (h : x.toUnsigned64 < twoPow width) :
    unsigned.decode width (unsigned.encode width x) = Double.ofNat x.toUnsigned64 := by
  rw [encode_unsigned hmax, Nat.mod_eq_of_lt h, decode]

include hpos in
theorem decode_encode_signed (h : FitsSigned width x.toSigned64) :
    signed.decode width (signed.encode width x) = ofInt x.toSigned64 := by
  have hraw : x.toSigned64 = signExtend (signed.encode width x) width := by
    rw [eq_signExtend_iff hpos hmax, encode_signed hmax]
    exact ⟨h, (Int.mod_modEq _ _).symm⟩
  rw [decode, ← hraw]

/-! ### From a double to the wire and back -/

/-- An unsigned integer that the width can hold is decoded as it was. -/
theorem isInteger_decode_unsigned (h : x.IsInteger v) (hv : 0 ≤ v) (hlt : v < twoPow width) :
    (unsigned.decode width (unsigned.encode width x)).IsInteger v := by
  have hpow : twoPow width ≤ twoPow 64 := Nat.pow_le_pow_right (by decide) hmax
  have hwhole : (x.toUnsigned64 : Int) = v := by
    rw [h.toUnsigned64_eq]
    omega
  rw [decode_encode_unsigned hmax (by omega), ← ofInt_natCast, hwhole]
  exact h.isInteger_ofInt

include hpos in
/-- A signed integer that the width can hold is decoded as it was. -/
theorem isInteger_decode_signed (h : x.IsInteger v) (hv : FitsSigned width v) :
    (signed.decode width (signed.encode width x)).IsInteger v := by
  have hpow : twoPow (width - 1) ≤ twoPow 63 := twoPow_pred_le hpos hmax
  have hwhole : x.toSigned64 = v := by
    obtain ⟨hlower, hupper⟩ := hv
    rw [h.toSigned64_eq]
    omega
  rw [decode_encode_signed hpos hmax (hwhole ▸ hv), hwhole]
  exact h.isInteger_ofInt

/-! ### From the wire to a double and back -/

variable {raw : Nat}

theorem encode_decode_unsigned (hexact : width ≤ 53) (hraw : raw < twoPow width) :
    unsigned.encode width (unsigned.decode width raw) = raw := by
  have hsmall : raw < 2 ^ 53 :=
    Nat.lt_of_lt_of_le hraw (Nat.pow_le_pow_right (by decide) hexact)
  rw [encode_unsigned hmax, decode, toUnsigned64_ofNat hsmall, Nat.mod_eq_of_lt hraw]

include hpos in
theorem encode_decode_signed (hexact : width ≤ 54) (hraw : raw < twoPow width) :
    signed.encode width (signed.decode width raw) = raw := by
  have hpow : twoPow (width - 1) ≤ 2 ^ 53 := twoPow_pred_le hpos hexact
  have hmod : signExtend raw width % twoPow width = raw % twoPow width :=
    signExtend_modEq hpos hmax raw
  obtain ⟨hlower, hupper⟩ := fitsSigned_signExtend hpos hmax raw
  have hinteger := isInteger_ofInt_of_le (v := signExtend raw width) (by omega)
  have hlimit : (2 : Nat) ^ 53 < twoPow 63 := by decide
  have hwhole : (ofInt (signExtend raw width)).toSigned64 = signExtend raw width := by
    rw [hinteger.toSigned64_eq]
    omega
  have hlow : (signed.encode width (signed.decode width raw) : Int) = raw := by
    rw [encode_signed hmax, decode, hwhole, hmod, ← Int.natCast_mod, Nat.mod_eq_of_lt hraw]
  exact Int.natCast_inj.mp hlow

omit hmax

/-- What 64 bits are read as is read again, also if it was rounded up and cut off. -/
theorem decode_encode_decode_unsigned (hraw : raw < twoPow 64) :
    unsigned.decode 64 (unsigned.encode 64 (unsigned.decode 64 raw)) = unsigned.decode 64 raw := by
  rw [decode_encode_unsigned (Nat.le_refl 64) (toUnsigned64_lt _)]
  exact ofNat_toUnsigned64_ofNat (Nat.le_of_lt hraw)

/-- The same for signed integers. -/
theorem decode_encode_decode_signed (raw : Nat) :
    signed.decode 64 (signed.encode 64 (signed.decode 64 raw)) = signed.decode 64 raw := by
  obtain ⟨hlower, hupper⟩ := fitsSigned_signExtend (show 0 < 64 by decide) (Nat.le_refl 64) raw
  have hwidth : twoPow (64 - 1) = twoPow 63 := rfl
  rw [hwidth] at hlower hupper
  rw [decode_encode_signed (by decide) (Nat.le_refl 64) (fitsSigned_toSigned64 _)]
  exact ofInt_toSigned64_ofInt (by omega)

/--
Whatever integer a double is exactly comes back from a width that can hold it.  A pattern comes back
from its double if no integer of its width has to be rounded; at 64 bits it need not, but it is read
as the same double again.  Reading a signed pattern depends on no bit above its width.
-/
theorem integers_cross_wire (hpos : 0 < width) (hmax : width ≤ maxValueWidth) :
    (∀ (x : Double) (v : Int), x.IsInteger v →
      (0 ≤ v → v < twoPow width →
        (unsigned.decode width (unsigned.encode width x)).IsInteger v) ∧
      (FitsSigned width v → (signed.decode width (signed.encode width x)).IsInteger v)) ∧
    (∀ raw < twoPow width,
      (width ≤ 53 → unsigned.encode width (unsigned.decode width raw) = raw) ∧
      (width ≤ 54 → signed.encode width (signed.decode width raw) = raw) ∧
      (width = 64 → ∀ kind ∈ [unsigned, signed],
        kind.decode width (kind.encode width (kind.decode width raw)) = kind.decode width raw)) ∧
    ∀ (raw : Nat) (v : Int),
      v = signExtend raw width ↔ FitsSigned width v ∧ v ≡ raw [ZMOD twoPow width] := by
  refine ⟨fun x v h => ⟨?_, ?_⟩, fun raw hraw => ⟨?_, ?_, ?_⟩, fun raw v => ?_⟩
  · exact isInteger_decode_unsigned hmax h
  · exact isInteger_decode_signed hpos hmax h
  · exact fun hexact => encode_decode_unsigned hmax hexact hraw
  · exact fun hexact => encode_decode_signed hpos hmax hexact hraw
  · rintro rfl kind hkind
    simp only [List.mem_cons, List.not_mem_nil, or_false] at hkind
    rcases hkind with rfl | rfl
    · exact decode_encode_decode_unsigned hraw
    · exact decode_encode_decode_signed raw
  · exact eq_signExtend_iff hpos hmax

end Conversion

open scoped HalfConversion in
/-- The lowest integers of the widest range and of the widest one without rounding. -/
theorem integers_cross_wire_at_limits :
    let lowest := ofInt (-2 ^ 63)
    lowest.IsInteger (-2 ^ 63) ∧ FitsSigned 64 (-2 ^ 63) ∧
      (signed.decode 64 (signed.encode 64 lowest)).IsInteger (-2 ^ 63) ∧
      unsigned.decode 64 (unsigned.encode 64 (unsigned.decode 64 (2 ^ 64 - 1))) =
        unsigned.decode 64 (2 ^ 64 - 1) ∧
      signed.encode 54 (signed.decode 54 (2 ^ 53)) = 2 ^ 53 := by
  intro lowest
  have hinteger : lowest.IsInteger (-2 ^ 63) := ⟨by decide +kernel, by decide +kernel⟩
  have hfits : FitsSigned 64 (-2 ^ 63) := ⟨by decide, by decide⟩
  obtain ⟨hdouble, hpattern, -⟩ :=
    integers_cross_wire (show 0 < 64 by decide) (Nat.le_refl 64)
  obtain ⟨-, hexact, -⟩ := integers_cross_wire (show 0 < 54 by decide) (by decide)
  refine ⟨hinteger, hfits, (hdouble lowest _ hinteger).2 hfits, ?_, ?_⟩
  · exact (hpattern (2 ^ 64 - 1) (by decide)).2.2 rfl unsigned (List.mem_cons_self ..)
  · exact (hexact (2 ^ 53) (by decide)).2.1 (Nat.le_refl 54)

end ScalarKind

end Width

end BusSchema
