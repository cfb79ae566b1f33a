import ForestGraph.Proofs.ExactNumbers

/-!
# Exact decimals

A decimal that is a binary64 number is read as this number.  The reader of the library
multiplies or divides small decimals as numbers and rounds all others once; both ways
end at the exact value.
-/

namespace ForestGraph

open Float.Model (Format UnpackedFloat totalExponent)
open Float.Model.UnpackedFloat

variable {number other result : Float} {value factor : ℚ}

/-! ## Products and quotients -/

theorem two_zpow_le_dyadic {significand : Nat} {scale : Int} (h : 0 < significand) :
    2 ^ (totalExponent significand scale - 1) ≤ dyadic significand scale := by
  rw [← not_lt, ← totalExponent_le_iff h]
  omega

theorem Holds.mul (h : Holds number value) (hOther : Holds other factor)
    (hResult : Holds result (value * factor)) : number * other = result := by
  obtain ⟨first, scale₁, hFirst, _, hUnpack, rfl⟩ := h.exists_stored
  obtain ⟨second, scale₂, hSecond, _, hAgain, rfl⟩ := hOther.exists_stored
  refine hResult.ofModel_pack fun significand scale hStored _ hValue => ?_
  rw [hUnpack, hAgain]
  refine hStored.mul hFirst.pos hSecond.pos ?_ hValue.symm
  -- The leading bit of a product stands at most one place below the sum of the places.
  have hPlaces : totalExponent first scale₁ + totalExponent second scale₂ - 1 ≤
      totalExponent significand scale := by
    by_contra hBelow
    have hLt : dyadic significand scale <
        2 ^ (totalExponent first scale₁ - 1 + (totalExponent second scale₂ - 1)) :=
      (totalExponent_le_iff hStored.pos).mp (by omega)
    rw [hValue, zpow_add₀ two_ne_zero] at hLt
    exact hLt.not_ge (mul_le_mul (two_zpow_le_dyadic hFirst.pos) (two_zpow_le_dyadic hSecond.pos)
      (by positivity) (dyadic_pos hFirst.pos).le)
  have hScale₁ := hFirst.scale_eq
  have hScale₂ := hSecond.scale_eq
  have hScale := hStored.scale_eq
  unfold totalExponent at *
  omega

theorem Holds.div (h : Holds number value) (hOther : Holds other factor)
    (hResult : Holds result (value / factor)) : number / other = result := by
  obtain ⟨first, scale₁, hFirst, _, hUnpack, rfl⟩ := h.exists_stored
  obtain ⟨second, scale₂, hSecond, _, hAgain, rfl⟩ := hOther.exists_stored
  refine hResult.ofModel_pack fun significand scale hStored _ hValue => ?_
  rw [hUnpack, hAgain]
  refine hStored.div hFirst.pos hSecond.pos ?_
  rw [hValue, div_mul_cancel₀ _ (dyadic_pos hSecond.pos).ne']

/-! ## Small decimals -/

/-- Natural numbers of 53 bits are numbers of the format. -/
theorem holds_toFloat {digits : Nat} (hPos : 0 < digits) (hSmall : digits < 2 ^ 53) :
    Holds digits.toUInt64.toFloat digits := by
  have hLog : digits.log2 < 53 := (Nat.log2_lt hPos.ne').mpr hSmall
  let significand := digits * 2 ^ (52 - digits.log2)
  have hValue : dyadic digits 0 = dyadic significand (digits.log2 - 52) := by
    rw [dyadic_shift]
    congr 1
    omega
  have hSignificand : 0 < significand := by positivity
  have hTotal := totalExponent_eq_of_eq hPos hSignificand hValue
  have hStored : Stored significand (digits.log2 - 52) :=
    ⟨hSignificand, by rw [← hTotal, totalExponent]; omega⟩
  refine ⟨significand, digits.log2 - 52, hStored.pos, ?_, ?_⟩
  · have hNat : digits.toUInt64.toNat = digits := by
      rw [Nat.toUInt64_eq, UInt64.toNat_ofNat']
      omega
    have hRound : UnpackedFloat.ofUInt64 Format.binary64 digits.toUInt64 =
        .finite .positive significand (digits.log2 - 52) hStored.pos := by
      have hCompare : compare (digits : Int) 0 = .gt := by
        rw [compare_gt_iff_gt]
        omega
      simp only [UnpackedFloat.ofUInt64, UnpackedFloat.ofNat, UnpackedFloat.ofInt,
        UnpackedFloat.normalize, hNat, hCompare, Int.toNat_natCast]
      exact hStored.round .positive hPos hValue
    show unpack Format.binary64 (pack Format.binary64
      (UnpackedFloat.ofUInt64 Format.binary64 digits.toUInt64)) = _
    rw [hRound]
    exact hStored.unpack_pack .positive (by omega)
  · rw [← hValue, dyadic, zpow_zero, mul_one]

/-- A power is a fraction of powers with natural exponents. -/
theorem zpow_eq_div {base : ℚ} (hBase : base ≠ 0) (exponent : Int) :
    base ^ exponent = base ^ exponent.toNat / base ^ (-exponent).toNat := by
  rw [← zpow_natCast, ← zpow_natCast, ← zpow_sub₀ hBase]
  congr 1
  omega

/-- A number of the table is a power of ten. -/
def isPowerOfTen (number : Float) (exponent : Nat) : Bool :=
  match number.toModel.unpack with
  | .finite .positive significand scale _ =>
      significand * 2 ^ scale.toNat == 10 ^ exponent * 2 ^ (-scale).toNat
  | _ => false

theorem holds_of_isPowerOfTen {exponent : Nat} (h : isPowerOfTen number exponent = true) :
    Holds number (10 ^ exponent) := by
  unfold isPowerOfTen at h
  split at h
  · rename_i significand scale hPos hUnpack
    have hCross : (significand : ℚ) * 2 ^ scale.toNat = 10 ^ exponent * 2 ^ (-scale).toNat := by
      exact_mod_cast beq_iff_eq.mp h
    refine ⟨significand, scale, hPos, hUnpack, ?_⟩
    rw [dyadic, zpow_eq_div two_ne_zero, mul_div_assoc', hCross]
    exact mul_div_cancel_right₀ _ (by positivity)
  · cases h

/-- The powers of ten up to the twenty-second are numbers of the format. -/
theorem holds_exactlyRepresentablePowersOfTen {exponent : Nat} (h : exponent < 23) :
    Holds (GetElem.getElem Float.exactlyRepresentablePowersOfTen exponent h) (10 ^ exponent) := by
  apply holds_of_isPowerOfTen
  revert exponent
  decide +kernel

/-- The fast path of the reader: both parts are numbers of the format. -/
theorem Holds.ofScientific_small {digits : Nat} {exponent : Int} (hPos : 0 < digits)
    (h : Holds number (digits * 10 ^ exponent))
    (hSmall : digits < 2 ^ 53 ∧ exponent.natAbs ≤ 22) :
    Float.ofScientific digits (decide (exponent < 0)) exponent.natAbs = number := by
  have hDigits := holds_toFloat hPos hSmall.1
  have hPower := @holds_exactlyRepresentablePowersOfTen exponent.natAbs (by omega)
  unfold Float.ofScientific
  rw [dif_pos hSmall]
  by_cases hNegative : exponent < 0
  · rw [if_pos (by simpa using hNegative)]
    refine hDigits.div hPower ?_
    have hExponent : exponent = -(exponent.natAbs : Int) := by omega
    rwa [hExponent, zpow_neg, zpow_natCast, ← div_eq_mul_inv] at h
  · rw [if_neg (by simpa using hNegative)]
    refine hDigits.mul hPower ?_
    have hExponent : exponent = (exponent.natAbs : Int) := by omega
    rwa [hExponent, zpow_natCast] at h

/-- The least positive number. -/
theorem Holds.least_le (h : Holds number value) : 2 ^ (-1074 : Int) ≤ value := by
  obtain ⟨significand, scale, hStored, _, _, rfl⟩ := h.exists_stored
  have hScale := hStored.scale_eq
  have hOne : (1 : ℚ) ≤ significand := by exact_mod_cast hStored.pos
  have hPower : (2 : ℚ) ^ (-1074 : Int) ≤ 2 ^ scale := zpow_le_zpow_right₀ one_le_two (by omega)
  calc (2 : ℚ) ^ (-1074 : Int) ≤ 1 * 2 ^ scale := by rwa [one_mul]
    _ ≤ significand * 2 ^ scale := mul_le_mul_of_nonneg_right hOne (by positivity)

/-- All numbers are below the power of two that the format does not reach. -/
theorem Holds.lt_overflow (h : Holds number value) : value < 2 ^ (1024 : Int) := by
  obtain ⟨significand, scale, hStored, hLe, _, rfl⟩ := h.exists_stored
  have hScale := hStored.scale_eq
  exact (totalExponent_le_iff hStored.pos).mp (by omega)

/-! ## The first digit -/

section Point

variable {digits : Nat} {exponent : Int}

theorem digitCount_le_iff {places : Nat} (h : 0 < places) :
    digitCount digits ≤ places ↔ digits < 10 ^ places :=
  Nat.length_toDigits_le_iff (by decide) h

theorem digitCount_pos : 0 < digitCount digits :=
  Nat.length_toDigits_pos

/-- The count of digits bounds a decimal from above. -/
theorem decimal_lt_point : (digits : ℚ) * 10 ^ exponent < 10 ^ (digitCount digits + exponent) := by
  have hDigits : digits < 10 ^ digitCount digits := (digitCount_le_iff digitCount_pos).mp le_rfl
  rw [zpow_add₀ (by norm_num), zpow_natCast]
  refine mul_lt_mul_of_pos_right ?_ (by positivity)
  exact_mod_cast hDigits

/-- The first digit bounds a decimal from below. -/
theorem point_le_decimal (h : 0 < digits) :
    10 ^ (digitCount digits + exponent - 1) ≤ (digits : ℚ) * 10 ^ exponent := by
  have hDigits : 10 ^ (digitCount digits - 1) ≤ digits := by
    by_cases hOne : digitCount digits = 1
    · rw [hOne]
      exact h
    · have hCount := @digitCount_pos digits
      by_contra hBelow
      have := (digitCount_le_iff (by omega)).mpr (not_le.mp hBelow)
      omega
  have hPoint : (digitCount digits + exponent - 1 : Int) =
      ((digitCount digits - 1 : Nat) : Int) + exponent := by
    have := @digitCount_pos digits
    omega
  rw [hPoint, zpow_add₀ (by norm_num), zpow_natCast]
  refine mul_le_mul_of_nonneg_right ?_ (by positivity)
  exact_mod_cast hDigits

/-- The first digit of a number of the format. -/
theorem Holds.point_bounds (hPos : 0 < digits) (h : Holds number (digits * 10 ^ exponent)) :
    -323 ≤ digitCount digits + exponent ∧ digitCount digits + exponent ≤ 309 := by
  constructor
  · have hNat : 2 ^ 1074 ≤ 10 ^ 324 := by decide +kernel
    have hPower : (10 : ℚ) ^ (-324 : Int) ≤ 2 ^ (-1074 : Int) := by
      rw [zpow_neg, zpow_neg]
      exact inv_anti₀ (by positivity) (by exact_mod_cast hNat)
    have hLt := (hPower.trans h.least_le).trans_lt decimal_lt_point
    have := (zpow_lt_zpow_iff_right₀ (by norm_num : (1 : ℚ) < 10)).mp hLt
    omega
  · have hNat : 2 ^ 1024 ≤ 10 ^ 309 := by decide +kernel
    have hPower : (2 : ℚ) ^ (1024 : Int) ≤ 10 ^ (309 : Int) := by exact_mod_cast hNat
    have hLt := ((point_le_decimal hPos).trans_lt h.lt_overflow).trans_le hPower
    have := (zpow_lt_zpow_iff_right₀ (by norm_num : (1 : ℚ) < 10)).mp hLt
    omega

end Point

/-! ## All decimals -/

section Decimals

variable {digits : Nat} {exponent : Int}

/-- The slow path of the reader: one rounding of the exact product or quotient. -/
theorem Holds.ofScientific_large (hPos : 0 < digits)
    (h : Holds number (digits * 10 ^ exponent)) :
    Float.ofModel (Float.Model.ofScientific digits exponent) = number := by
  refine h.ofModel_pack fun significand scale hStored hLe hValue => ?_
  obtain ⟨hLow, hHigh⟩ := h.point_bounds hPos
  have hCount := @digitCount_pos digits
  have hLog : digitCount digits ≤ digits.log2 + 1 := by
    refine (digitCount_le_iff (by omega)).mpr (Nat.lt_log2_self.trans_le ?_)
    exact Nat.pow_le_pow_left (by decide) _
  have hNotLarge : ¬ exponent > 2 ^ Format.binary64.exponentBits := by
    change ¬ exponent > 2048
    omega
  have hNotSmall : ¬ exponent < -((2 ^ Format.binary64.exponentBits : Int) + digits.log2) := by
    change ¬ exponent < -(2048 + (digits.log2 : Int))
    omega
  unfold UnpackedFloat.ofScientific
  rw [dif_neg hPos.ne', if_neg hNotLarge, if_neg hNotSmall]
  by_cases hExponent : 0 ≤ exponent
  · rw [if_pos hExponent]
    have hScale : -53 + 0 ≤ scale := by
      have hOne : (1 : ℚ) ≤ digits := by exact_mod_cast hPos
      have hTotal : ¬ totalExponent significand scale ≤ 0 := by
        rw [totalExponent_le_iff hStored.pos, hValue, zpow_zero, not_lt]
        exact one_le_mul_of_one_le_of_one_le hOne (one_le_zpow₀ (by norm_num) hExponent)
      have := hStored.scale_eq
      omega
    refine hStored.mul _ _ hScale ?_
    rw [hValue, Nat.shiftLeft_eq]
    change dyadic (digits * 2 ^ 53) (-53) * dyadic (10 ^ exponent.toNat) 0 = _
    obtain ⟨power, rfl⟩ := Int.eq_ofNat_of_zero_le hExponent
    rw [dyadic_shift, dyadic, dyadic]
    simp
  · rw [if_neg hExponent]
    refine hStored.div _ _ ?_
    obtain ⟨power, rfl⟩ : ∃ power : Nat, exponent = -power := ⟨(-exponent).toNat, by omega⟩
    have hTen : (10 : ℚ) ^ power ≠ 0 := by positivity
    rw [hValue, dyadic, dyadic, neg_neg, Int.toNat_natCast, zpow_neg, zpow_natCast]
    push_cast
    rw [mul_one, mul_one, mul_assoc, inv_mul_cancel₀ hTen, mul_one]

theorem Holds.ofScientific (hPos : 0 < digits)
    (h : Holds number (digits * 10 ^ exponent)) :
    Float.ofScientific digits (decide (exponent < 0)) exponent.natAbs = number := by
  by_cases hSmall : digits < 2 ^ 53 ∧ exponent.natAbs ≤ 22
  · exact h.ofScientific_small hPos hSmall
  · unfold Float.ofScientific
    rw [dif_neg hSmall]
    have hExponent : (if decide (exponent < 0) = true then Int.negOfNat exponent.natAbs
        else Int.ofNat exponent.natAbs) = exponent := by
      simp only [decide_eq_true_eq]
      split
      · rw [Int.negOfNat_eq, Int.ofNat_eq_natCast]
        omega
      · rw [Int.ofNat_eq_natCast]
        omega
    simp only [hExponent]
    exact h.ofScientific_large hPos

/-- Trailing zeros may stand in the significand or in the exponent. -/
theorem trim_value (digits : Nat) (exponent : Int) :
    ((Decimal.trim digits exponent).1 : ℚ) * 10 ^ (Decimal.trim digits exponent).2 =
      digits * 10 ^ exponent := by
  fun_induction Decimal.trim digits exponent with
  | case1 digits exponent h ih =>
      rw [ih, zpow_add_one₀ (by norm_num)]
      have hDigits : digits = digits / 10 * 10 := by omega
      conv_rhs => rw [hDigits]
      push_cast
      ring
  | case2 digits exponent h => rfl

theorem trim_pos (h : 0 < digits) : 0 < (Decimal.trim digits exponent).1 := by
  fun_induction Decimal.trim digits exponent with
  | case1 digits exponent hZero ih => exact ih (by omega)
  | case2 digits exponent hLast => exact h

/-- A decimal that is a number of the format is read as this number. -/
theorem Holds.magnitude (h : Holds number (digits * 10 ^ exponent)) :
    Decimal.magnitude digits exponent = number := by
  have hPos : 0 < digits := by
    have hValue := h.pos
    by_contra hZero
    obtain rfl : digits = 0 := by omega
    simp at hValue
  rw [← trim_value] at h
  have hTrimmed := @trim_pos digits exponent hPos
  obtain ⟨hLow, hHigh⟩ := h.point_bounds hTrimmed
  have hNotLarge : ¬ Decimal.largestMagnitude < digitCount (Decimal.trim digits exponent).1 +
      (Decimal.trim digits exponent).2 := by
    unfold Decimal.largestMagnitude
    omega
  have hNotSmall : ¬ digitCount (Decimal.trim digits exponent).1 +
      (Decimal.trim digits exponent).2 < Decimal.smallestMagnitude := by
    unfold Decimal.smallestMagnitude
    omega
  simp only [Decimal.magnitude, hTrimmed.ne', hNotLarge, hNotSmall, if_false]
  exact h.ofScientific hTrimmed

end Decimals

end ForestGraph
