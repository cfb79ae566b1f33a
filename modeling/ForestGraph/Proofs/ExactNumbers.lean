import ForestGraph.Number.Decimal
import ForestGraph.Proofs.PackedNumbers

/-!
# Exact numbers

A positive binary64 number is a significand times a power of two, in the one form that
the format allows.  Where the exact result of an operation is such a number, rounding
has nothing to do: products, quotients and decimals that hit a number give it.
-/

namespace ForestGraph

open Float.Model (Format UnpackedFloat totalExponent)
open Float.Model.UnpackedFloat

/-! ## Dyadic fractions -/

/-- The fraction `significand * 2 ^ scale`. -/
def dyadic (significand : Nat) (scale : Int) : ℚ :=
  significand * 2 ^ scale

section Dyadic

variable {significand more : Nat} {scale other : Int}

theorem dyadic_pos (h : 0 < significand) : 0 < dyadic significand scale :=
  mul_pos (by exact_mod_cast h) (by positivity)

/-- A factor two may stand in the significand or in the scale. -/
theorem dyadic_shift (significand places : Nat) (scale : Int) :
    dyadic (significand * 2 ^ places) scale = dyadic significand (scale + places) := by
  unfold dyadic
  rw [zpow_add₀ two_ne_zero, zpow_natCast]
  push_cast
  ring

/-- The total exponent is the place of the leading bit. -/
theorem totalExponent_le_iff (h : 0 < significand) {bound : Int} :
    totalExponent significand scale ≤ bound ↔ dyadic significand scale < 2 ^ bound := by
  have hSignificand : (0 : ℚ) < significand := by exact_mod_cast h
  have hSplit : dyadic significand scale < 2 ^ bound ↔
      (significand : ℚ) < ((2 : ℕ) : ℚ) ^ (bound - scale) := by
    rw [dyadic, Nat.cast_ofNat, zpow_sub₀ two_ne_zero, lt_div_iff₀ (by positivity)]
  rw [hSplit, Int.lt_zpow_iff_log_lt one_lt_two hSignificand, Int.log_natCast,
    ← Nat.log2_eq_log_two, totalExponent]
  omega

theorem totalExponent_le_of_le (h : 0 < significand) (hMore : 0 < more)
    (hLe : dyadic significand scale ≤ dyadic more other) :
    totalExponent significand scale ≤ totalExponent more other :=
  (totalExponent_le_iff h).mpr (hLe.trans_lt ((totalExponent_le_iff hMore).mp le_rfl))

theorem totalExponent_eq_of_eq (h : 0 < significand) (hMore : 0 < more)
    (hEq : dyadic significand scale = dyadic more other) :
    totalExponent significand scale = totalExponent more other :=
  le_antisymm (totalExponent_le_of_le h hMore hEq.le) (totalExponent_le_of_le hMore h hEq.ge)

/-- With a smaller scale the significand is larger by a power of two. -/
theorem eq_mul_two_pow_of_dyadic_eq (hLe : scale ≤ other)
    (hEq : dyadic significand scale = dyadic more other) :
    significand = more * 2 ^ (other - scale).toNat := by
  have hScale : other = scale + ((other - scale).toNat : Int) := by omega
  rw [hScale, ← dyadic_shift] at hEq
  have hPower : (2 : ℚ) ^ scale ≠ 0 := by positivity
  exact_mod_cast mul_right_cancel₀ hPower hEq

end Dyadic

/-! ## The form of the format -/

theorem targetExponent_eq_max (total : Int) :
    Format.binary64.targetExponent total = max (total - 53) (-1074) := rfl

/-- A significand and a scale in the form that the format allows. -/
structure Stored (significand : Nat) (scale : Int) : Prop where
  pos : 0 < significand
  scale_eq : scale = max (totalExponent significand scale - 53) (-1074)

/-! ## Rounding -/

/-- Zeros are shifted out without a trace. -/
theorem repeat_shiftRightOne (mantissa places : Nat) :
    Nat.repeat ExtendedMantissa.shiftRightOne places ⟨mantissa * 2 ^ places, false, false⟩ =
      ⟨mantissa, false, false⟩ := by
  induction places generalizing mantissa with
  | zero => simp [Nat.repeat]
  | succ places ih =>
      have hFactor : mantissa * 2 ^ (places + 1) = mantissa * 2 * 2 ^ places := by ring
      rw [hFactor, Nat.repeat, ih]
      simp [ExtendedMantissa.shiftRightOne]

namespace Stored

variable {significand mantissa : Nat} {scale exponent : Int}

/-- What stands at a smaller exponent is shifted to the form of the format. -/
theorem shiftToTargetExponent (h : Stored significand scale) (hLe : exponent ≤ scale)
    (hEq : dyadic mantissa exponent = dyadic significand scale) :
    UnpackedFloat.shiftToTargetExponent Format.binary64 mantissa exponent .exact =
      (⟨significand, false, false⟩, scale) := by
  have hMantissa := eq_mul_two_pow_of_dyadic_eq hLe hEq
  have hPos : 0 < mantissa := by
    rw [hMantissa]
    have := h.pos
    positivity
  have hTotal := totalExponent_eq_of_eq hPos h.pos hEq
  have hScale : exponent + ((scale - exponent).toNat : Int) = scale := by omega
  simp only [UnpackedFloat.shiftToTargetExponent, shiftToExponent, hTotal, targetExponent_eq_max,
    ← h.scale_eq, hScale, ExtendedMantissa.ofMantissaAndAccuracy]
  rw [hMantissa]
  exact congrArg (·, scale) (repeat_shiftRightOne significand _)

/-- A number that the format allows is not changed by rounding. -/
theorem roundWithAccuracy (h : Stored significand scale) (sign : Sign) (hLe : exponent ≤ scale)
    (hEq : dyadic mantissa exponent = dyadic significand scale) :
    UnpackedFloat.roundWithAccuracy Format.binary64 sign mantissa exponent .exact =
      .finite sign significand scale h.pos := by
  have hRounded : (⟨significand, false, false⟩ : ExtendedMantissa).roundedMantissa = significand :=
    rfl
  simp only [UnpackedFloat.roundWithAccuracy, h.shiftToTargetExponent hLe hEq, hRounded,
    h.shiftToTargetExponent le_rfl rfl]
  rw [dif_neg h.pos.ne']

theorem round (h : Stored significand scale) (sign : Sign)
    (hPos : 0 < mantissa) (hEq : dyadic mantissa exponent = dyadic significand scale) :
    UnpackedFloat.round Format.binary64 sign mantissa exponent =
      .finite sign significand scale h.pos := by
  have hTotal := totalExponent_eq_of_eq hPos h.pos hEq
  simp only [UnpackedFloat.round, decreaseExponent, hTotal, targetExponent_eq_max, ← h.scale_eq,
    Nat.shiftLeft_eq]
  refine h.roundWithAccuracy sign (by omega) ?_
  rw [dyadic_shift, sub_add_cancel, hEq]

/-! ## Operations -/

variable {first second : Nat} {scale₁ scale₂ : Int}

/-- A product that is a number of the format. -/
theorem mul (h : Stored significand scale) (hFirst : 0 < first) (hSecond : 0 < second)
    (hLe : scale₁ + scale₂ ≤ scale)
    (hEq : dyadic first scale₁ * dyadic second scale₂ = dyadic significand scale) :
    UnpackedFloat.mul Format.binary64 (.finite .positive first scale₁ hFirst)
      (.finite .positive second scale₂ hSecond) = .finite .positive significand scale h.pos := by
  refine h.roundWithAccuracy .positive hLe ?_
  rw [← hEq, dyadic, dyadic, dyadic, zpow_add₀ two_ne_zero]
  push_cast
  ring

/-- The long division of a quotient that is a number of the format leaves no rest. -/
theorem divCore (h : Stored significand scale) (hFirst : 0 < first) (hSecond : 0 < second)
    (hEq : dyadic first scale₁ = dyadic significand scale * dyadic second scale₂) :
    ∃ mantissa exponent, UnpackedFloat.divCore Format.binary64 first scale₁ second scale₂ =
        (mantissa, exponent, .exact) ∧
      exponent ≤ scale ∧ dyadic mantissa exponent = dyadic significand scale := by
  have hTotal : totalExponent first scale₁ - totalExponent second scale₂ ≤
      totalExponent significand scale := by
    have hProduct : dyadic first scale₁ < 2 ^ (totalExponent significand scale +
        totalExponent second scale₂) := by
      rw [hEq, zpow_add₀ two_ne_zero]
      exact mul_lt_mul'' ((totalExponent_le_iff h.pos).mp le_rfl)
        ((totalExponent_le_iff hSecond).mp le_rfl) (dyadic_pos h.pos).le (dyadic_pos hSecond).le
    have := (totalExponent_le_iff hFirst).mpr hProduct
    omega
  have hScale := h.scale_eq
  let exponent := min (scale₁ - scale₂)
    (max (totalExponent first scale₁ - totalExponent second scale₂ - 53) (-1074))
  have hLe : exponent ≤ scale := by omega
  -- The dividend is the divisor times the significand, both at the exponent of the quotient.
  have hDividend : first * 2 ^ (scale₁ - scale₂ - exponent).toNat =
      significand * 2 ^ (scale - exponent).toNat * second := by
    have hShifted : dyadic (first * 2 ^ (scale₁ - scale₂ - exponent).toNat) (exponent + scale₂) =
        dyadic (significand * 2 ^ (scale - exponent).toNat * second) (exponent + scale₂) := by
      have hQuotient : dyadic (significand * 2 ^ (scale - exponent).toNat) exponent =
          dyadic significand scale := by
        rw [dyadic_shift]
        congr 1
        omega
      rw [dyadic_shift, show exponent + scale₂ + ((scale₁ - scale₂ - exponent).toNat : Int) =
        scale₁ by omega, hEq, ← hQuotient, dyadic, dyadic, dyadic, zpow_add₀ two_ne_zero]
      push_cast
      ring
    simpa using eq_mul_two_pow_of_dyadic_eq le_rfl hShifted
  refine ⟨significand * 2 ^ (scale - exponent).toNat, exponent, ?_, hLe, ?_⟩
  · simp only [UnpackedFloat.divCore, targetExponent_eq_max, Nat.shiftLeft_eq]
    show (first * 2 ^ (scale₁ - scale₂ - exponent).toNat / second, exponent, accuracyOfFraction
      (first * 2 ^ (scale₁ - scale₂ - exponent).toNat % second) second) = _
    rw [hDividend, Nat.mul_div_cancel _ hSecond, Nat.mul_mod_left]
    rfl
  · rw [dyadic_shift]
    congr 1
    omega

/-- A quotient that is a number of the format. -/
theorem div (h : Stored significand scale) (hFirst : 0 < first) (hSecond : 0 < second)
    (hEq : dyadic first scale₁ = dyadic significand scale * dyadic second scale₂) :
    UnpackedFloat.div Format.binary64 (.finite .positive first scale₁ hFirst)
      (.finite .positive second scale₂ hSecond) = .finite .positive significand scale h.pos := by
  obtain ⟨mantissa, exponent, hCore, hLe, hSame⟩ := h.divCore hFirst hSecond hEq
  simp only [UnpackedFloat.div, hCore]
  exact h.roundWithAccuracy .positive hLe hSame

end Stored

/-! ## Packing -/

section Packing

variable {significand : Nat} {scale : Int}

/-- What fields stand for is in the form of the format. -/
theorem Fields.stored {exponent : BitVec 11} {mantissa : BitVec 52}
    (h : Fields exponent mantissa significand scale) (hPos : 0 < significand) :
    Stored significand scale ∧ scale ≤ 971 := by
  have hMantissa := mantissa.isLt
  have hExponent := exponent.isLt
  cases h with
  | normal hFinite hNormal =>
      have hLog : (2 ^ 52 + mantissa.toNat).log2 = 52 :=
        (Nat.log2_eq_iff (by omega)).mpr ⟨by omega, by omega⟩
      have hLow : exponent.toNat ≠ 0 := fun hZero => hNormal (BitVec.eq_of_toNat_eq hZero)
      have hHigh : exponent.toNat ≠ 2047 := fun hAll => hFinite (BitVec.eq_of_toNat_eq hAll)
      exact ⟨⟨hPos, by rw [totalExponent, hLog]; omega⟩, by omega⟩
  | subnormal _ _ =>
      have hLog := (Nat.log2_lt hPos.ne').mpr hMantissa
      exact ⟨⟨hPos, by rw [totalExponent]; omega⟩, by omega⟩

/-- Every finite number of the format has fields. -/
theorem Stored.exists_fields (h : Stored significand scale) (hLe : scale ≤ 971) :
    ∃ exponent mantissa, Fields exponent mantissa significand scale := by
  have hScale := h.scale_eq
  unfold totalExponent at hScale
  by_cases hNormal : significand.log2 = 52
  · obtain ⟨hLow, hHigh⟩ := (Nat.log2_eq_iff h.pos.ne').mp hNormal
    have hExponent : (BitVec.ofNat 11 (scale + 1075).toNat).toNat = (scale + 1075).toNat := by
      rw [BitVec.toNat_ofNat]
      omega
    have hMantissa : 2 ^ 52 + (BitVec.ofNat 52 significand).toNat = significand := by
      rw [BitVec.toNat_ofNat]
      omega
    have hFields := @Fields.normal (.ofNat 11 (scale + 1075).toNat) (.ofNat 52 significand)
      (fun hAll => by
        have hBits := hExponent.symm.trans (congrArg BitVec.toNat hAll)
        change (scale + 1075).toNat = 2047 at hBits
        omega)
      (fun hNone => by
        have hBits := hExponent.symm.trans (congrArg BitVec.toNat hNone)
        change (scale + 1075).toNat = 0 at hBits
        omega)
    rw [hMantissa, hExponent, show ((scale + 1075).toNat : Int) - 1075 = scale by omega] at hFields
    exact ⟨_, _, hFields⟩
  · have hBelow : significand < 2 ^ 52 := (Nat.log2_lt h.pos.ne').mp (by omega)
    have hMantissa : (BitVec.ofNat 52 significand).toNat = significand := by
      rw [BitVec.toNat_ofNat]
      omega
    have hFields := @Fields.subnormal 0#11 (.ofNat 52 significand) rfl (fun hNone => by
      have hBits := hMantissa.symm.trans (congrArg BitVec.toNat hNone)
      exact h.pos.ne' hBits)
    rw [hMantissa, show -1074 = scale by omega] at hFields
    exact ⟨_, _, hFields⟩

/-- Unpacking undoes packing on the finite numbers of the format. -/
theorem Stored.unpack_pack (h : Stored significand scale) (sign : Sign) (hLe : scale ≤ 971) :
    unpack Format.binary64 (pack Format.binary64 (.finite sign significand scale h.pos)) =
      .finite sign significand scale h.pos := by
  obtain ⟨exponent, mantissa, hFields⟩ := h.exists_fields hLe
  rw [hFields.pack, hFields.unpack h.pos]

end Packing

/-! ## Positive numbers -/

/-- A binary64 number stands for a positive fraction. -/
def Holds (number : Float) (value : ℚ) : Prop :=
  ∃ significand scale hPos, number.toModel.unpack = .finite .positive significand scale hPos ∧
    dyadic significand scale = value

section Holds

variable {number other result : Float} {value factor : ℚ}

theorem Holds.exists_stored (h : Holds number value) : ∃ significand scale,
    ∃ hStored : Stored significand scale, scale ≤ 971 ∧
      number.toModel.unpack = .finite .positive significand scale hStored.pos ∧
      dyadic significand scale = value := by
  obtain ⟨significand, scale, hPos, hUnpack, hValue⟩ := h
  obtain ⟨_, _, _, hFields⟩ := exists_fields hUnpack
  obtain ⟨hStored, hLe⟩ := hFields.stored hPos
  exact ⟨significand, scale, hStored, hLe, hUnpack, hValue⟩

theorem Holds.pos (h : Holds number value) : 0 < value := by
  obtain ⟨_, _, hPos, _, rfl⟩ := h
  exact dyadic_pos hPos

/-- A rounded result that stands for the value of a number is that number. -/
theorem Holds.ofModel_pack (h : Holds number value) {unpacked : UnpackedFloat}
    (hUnpacked : ∀ significand scale (hStored : Stored significand scale),
      scale ≤ 971 → dyadic significand scale = value →
        unpacked = .finite .positive significand scale hStored.pos) :
    Float.ofModel (Float.Model.pack unpacked) = number := by
  obtain ⟨significand, scale, hStored, hLe, hUnpack, hValue⟩ := h.exists_stored
  rw [hUnpacked significand scale hStored hLe hValue, ← hUnpack, ofModel_pack_unpack]

end Holds

end ForestGraph
