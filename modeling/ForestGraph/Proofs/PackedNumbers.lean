import Mathlib

/-!
# Packed numbers

The bits of a binary64 number are a sign, an exponent and a mantissa.  Taking the bits
apart and putting them together again changes nothing, so a number is determined by what
it is unpacked to.
-/

namespace ForestGraph

open Float.Model (Format UnpackedFloat)
open Float.Model.UnpackedFloat

/-! ## Fields -/

theorem toBitVec_ofBitVec (bit : BitVec 1) : (Sign.ofBitVec bit).toBitVec = bit := by
  revert bit
  decide

theorem ofBitVec_toBitVec (sign : Sign) : Sign.ofBitVec sign.toBitVec = sign := by
  cases sign <;> rfl

/-- The bits of a number are its three fields. -/
theorem exists_components (bits : BitVec Format.binary64.numBits) :
    ∃ (sign : Sign) (exponent : BitVec 11) (mantissa : BitVec 52),
      bits = packComponents Format.binary64 sign exponent mantissa := by
  refine ⟨Sign.ofBitVec (unpackSign bits), unpackExponent bits, unpackMantissa bits, ?_⟩
  simp only [packComponents, toBitVec_ofBitVec, unpackSign, unpackExponent, unpackMantissa,
    BitVec.extractLsb]
  ext place hPlace
  grind

theorem unpackSign_packComponents (sign : Sign) (exponent : BitVec 11) (mantissa : BitVec 52) :
    unpackSign (packComponents Format.binary64 sign exponent mantissa) = sign.toBitVec := by
  simp only [packComponents, unpackSign, BitVec.extractLsb]
  ext place hPlace
  grind

/-- The exponent and mantissa of a positive or negative number, and the significand and
scale that they stand for.  The leading bit of a normal number is not among its bits. -/
inductive Fields (exponent : BitVec 11) (mantissa : BitVec 52) : Nat → Int → Prop where
  | normal : exponent ≠ -1#11 → exponent ≠ 0#11 →
      Fields exponent mantissa (2 ^ 52 + mantissa.toNat) (exponent.toNat - 1075)
  | subnormal : exponent = 0#11 → mantissa ≠ 0#52 →
      Fields exponent mantissa mantissa.toNat (-1074)

namespace Fields

variable {sign : Sign} {exponent : BitVec 11} {mantissa : BitVec 52} {significand : Nat}
  {scale : Int}

theorem unpack (h : Fields exponent mantissa significand scale) (hPos : 0 < significand) :
    UnpackedFloat.unpack Format.binary64
      (packComponents Format.binary64 sign exponent mantissa) =
        .finite sign significand scale hPos := by
  have hImplicit : (1#1 ++ mantissa).toNat = 2 ^ 52 + mantissa.toNat := by
    rw [BitVec.toNat_append, ← Nat.shiftLeft_add_eq_or_of_lt mantissa.isLt]
    simp
  cases h with
  | normal hFinite hNormal =>
      simp only [UnpackedFloat.unpack, unpackMantissa_packComponents,
        unpackExponent_packComponents, unpackSign_packComponents, ofBitVec_toBitVec, hImplicit]
      rw [if_neg hFinite, if_neg hNormal]
      rfl
  | subnormal hExponent hMantissa =>
      subst hExponent
      have hFinite : (0#11 : BitVec 11) ≠ -1#11 := by decide
      simp only [UnpackedFloat.unpack, unpackMantissa_packComponents,
        unpackExponent_packComponents, unpackSign_packComponents, ofBitVec_toBitVec]
      rw [if_neg hFinite, if_pos trivial, dif_neg hMantissa]
      rfl

theorem pack (h : Fields exponent mantissa significand scale) (hPos : 0 < significand) :
    UnpackedFloat.pack Format.binary64 (.finite sign significand scale hPos) =
      packComponents Format.binary64 sign exponent mantissa := by
  have hMantissa := mantissa.isLt
  cases h with
  | normal hFinite hNormal =>
      have hLog : (2 ^ 52 + mantissa.toNat).log2 = 52 :=
        (Nat.log2_eq_iff (by omega)).mpr ⟨by omega, by omega⟩
      have hBits : 52 + 1 = Format.binary64.mantissaBits := rfl
      have hBiased : ((exponent.toNat : Int) - 1075 + Format.binary64.exponentBias +
          (52 : Nat)).toNat = exponent.toNat := by
        change ((exponent.toNat : Int) - 1075 + 1023 + 52).toNat = exponent.toNat
        omega
      have hSmall : ¬ 2 ^ 11 ≤ exponent.toNat + 1 := by
        intro hLarge
        have hAll : exponent.toNat = 2047 := by
          have := exponent.isLt
          omega
        exact hFinite (BitVec.eq_of_toNat_eq hAll)
      have hStored : BitVec.ofNat 52 (2 ^ 52 + mantissa.toNat) = mantissa :=
        BitVec.eq_of_toNat_eq (by rw [BitVec.toNat_ofNat]; omega)
      simp only [UnpackedFloat.pack, hLog, hBiased, hStored]
      rw [if_neg hSmall, if_pos hBits, BitVec.ofNat_toNat, BitVec.setWidth_eq]
  | subnormal hExponent _ =>
      have hLog : ¬ mantissa.toNat.log2 + 1 = Format.binary64.mantissaBits := by
        have hBelow := (Nat.log2_lt (Nat.ne_of_gt hPos)).mpr hMantissa
        change ¬ mantissa.toNat.log2 + 1 = 53
        omega
      subst hExponent
      simp only [UnpackedFloat.pack]
      rw [if_neg (by decide), if_neg hLog, BitVec.ofNat_toNat, BitVec.setWidth_eq]

end Fields

/-! ## Numbers -/

/-- Fields are those of an infinity, a NaN, a zero or another number. -/
theorem unpack_components (sign : Sign) (exponent : BitVec 11) (mantissa : BitVec 52) :
    exponent = -1#11 ∧ mantissa = 0#52 ∧
        unpack Format.binary64 (packComponents Format.binary64 sign exponent mantissa) =
          .infinity sign ∨
      exponent = -1#11 ∧ mantissa ≠ 0#52 ∧
        unpack Format.binary64 (packComponents Format.binary64 sign exponent mantissa) =
          .notANumber ∨
      exponent = 0#11 ∧ mantissa = 0#52 ∧
        unpack Format.binary64 (packComponents Format.binary64 sign exponent mantissa) =
          .zero sign ∨
      ∃ significand scale hPos, Fields exponent mantissa significand scale ∧
        unpack Format.binary64 (packComponents Format.binary64 sign exponent mantissa) =
          .finite sign significand scale hPos := by
  by_cases hFinite : exponent = -1#11
  · by_cases hMantissa : mantissa = 0#52
    · refine .inl ⟨hFinite, hMantissa, ?_⟩
      subst hFinite hMantissa
      cases sign <;> rfl
    · refine .inr (.inl ⟨hFinite, hMantissa, ?_⟩)
      simp [unpack, hFinite, hMantissa]
  · by_cases hNormal : exponent = 0#11
    · by_cases hMantissa : mantissa = 0#52
      · refine .inr (.inr (.inl ⟨hNormal, hMantissa, ?_⟩))
        subst hNormal hMantissa
        cases sign <;> rfl
      · have hPos : 0 < mantissa.toNat := by
          rwa [BitVec.toNat_pos, BitVec.pos_iff_ne_zero]
        have hFields := Fields.subnormal hNormal hMantissa
        exact .inr (.inr (.inr ⟨_, _, hPos, hFields, hFields.unpack hPos⟩))
    · have hPos : 0 < 2 ^ 52 + mantissa.toNat := by omega
      have hFields := @Fields.normal _ mantissa hFinite hNormal
      exact .inr (.inr (.inr ⟨_, _, hPos, hFields, hFields.unpack hPos⟩))

/-- Packing undoes unpacking. -/
theorem pack_unpack {bits : BitVec Format.binary64.numBits} (h : Format.binary64.Valid bits) :
    pack Format.binary64 (unpack Format.binary64 bits) = bits := by
  obtain ⟨sign, exponent, mantissa, rfl⟩ := exists_components bits
  rcases unpack_components sign exponent mantissa with
    ⟨rfl, rfl, hUnpack⟩ | ⟨rfl, hMantissa, hUnpack⟩ | ⟨rfl, rfl, hUnpack⟩ |
      ⟨_, _, hPos, hFields, hUnpack⟩
  · rw [hUnpack]
    rfl
  · rw [hUnpack, h.eq_packedNaN (by simp) (by simpa)]
    rfl
  · rw [hUnpack]
    rfl
  · rw [hUnpack, hFields.pack]

/-- The fields of what is unpacked to a positive or negative number. -/
theorem exists_fields {bits : BitVec Format.binary64.numBits} {sign : Sign} {significand : Nat}
    {scale : Int} {hPos : 0 < significand}
    (h : unpack Format.binary64 bits = .finite sign significand scale hPos) :
    ∃ exponent mantissa, bits = packComponents Format.binary64 sign exponent mantissa ∧
      Fields exponent mantissa significand scale := by
  obtain ⟨field, exponent, mantissa, rfl⟩ := exists_components bits
  rcases unpack_components field exponent mantissa with
    ⟨_, _, hUnpack⟩ | ⟨_, _, hUnpack⟩ | ⟨_, _, hUnpack⟩ | ⟨_, _, _, hFields, hUnpack⟩
  all_goals rw [hUnpack] at h; cases h
  exact ⟨exponent, mantissa, rfl, hFields⟩

/-- A number is determined by what it is unpacked to. -/
theorem ofModel_pack_unpack (number : Float) :
    Float.ofModel (Float.Model.pack number.toModel.unpack) = number := by
  obtain ⟨bits, hValid⟩ := number
  simp only [Float.Model.pack, Float.Model.unpack, pack_unpack hValid, UInt64.ofBitVec_toBitVec]

end ForestGraph
