import ForestGraph.Json.Token
import ForestGraph.Number.Layout
import ForestGraph.Proofs.ExactDecimals
import ForestGraph.Proofs.NumberOrder

/-!
# Short decimals of numbers

The search for a short decimal reads every candidate back before it takes it, and where
it finds none it gives the exact value.  So the decimal of a number is read as that
number, and it has no more digits than are told apart.
-/

namespace ForestGraph

open Float.Model (Format UnpackedFloat totalExponent)
open Float.Model.UnpackedFloat

/-! ## Zeros at the end of a significand -/

section Trim

variable {digits : Nat} {exponent : Int}

theorem trim_trim (digits : Nat) (exponent : Int) :
    Decimal.trim (Decimal.trim digits exponent).1 (Decimal.trim digits exponent).2 =
      Decimal.trim digits exponent := by
  fun_induction Decimal.trim digits exponent with
  | case1 digits exponent h ih => exact ih
  | case2 digits exponent h =>
      rw [Decimal.trim]
      simp [h]

theorem trim_le (digits : Nat) (exponent : Int) : (Decimal.trim digits exponent).1 ≤ digits := by
  fun_induction Decimal.trim digits exponent with
  | case1 digits exponent h ih => exact ih.trans (Nat.div_le_self _ _)
  | case2 digits exponent h => exact le_rfl

theorem magnitude_trim (digits : Nat) (exponent : Int) :
    Decimal.magnitude (Decimal.trim digits exponent).1 (Decimal.trim digits exponent).2 =
      Decimal.magnitude digits exponent := by
  simp only [Decimal.magnitude, trim_trim]

theorem magnitude_zero (exponent : Int) : Decimal.magnitude 0 exponent = 0 := by
  simp [Decimal.magnitude, Decimal.trim]

/-- A zero at the end of the significand may stand in the exponent. -/
theorem magnitude_mul_ten (digits places : Nat) (exponent : Int) :
    Decimal.magnitude (digits * 10 ^ places) exponent =
      Decimal.magnitude digits (exponent + places) := by
  rcases Nat.eq_zero_or_pos digits with rfl | hPos
  · rw [zero_mul, magnitude_zero, magnitude_zero]
  induction places generalizing exponent with
  | zero => simp
  | succ places ih =>
      have hTrim : Decimal.trim (digits * 10 ^ (places + 1)) exponent =
          Decimal.trim (digits * 10 ^ places) (exponent + 1) := by
        have hFactor : digits * 10 ^ (places + 1) = digits * 10 ^ places * 10 := by ring
        have hSome : digits * 10 ^ places * 10 ≠ 0 := by positivity
        rw [hFactor, Decimal.trim, dif_pos ⟨hSome, Nat.mul_mod_left _ _⟩,
          Nat.mul_div_cancel _ (by decide)]
      rw [← magnitude_trim, hTrim, magnitude_trim, ih]
      congr 1
      push_cast
      ring

end Trim

/-! ## Decimals of a size -/

/-- The first digit of a positive number is no zero. -/
theorem head?_toDigits {digits : Nat} (h : 0 < digits) :
    (Nat.toDigits 10 digits).head? ≠ some '0' := by
  induction digits using Nat.strong_induction_on with
  | _ digits ih =>
      by_cases hBelow : digits < 10
      · rw [Nat.toDigits_of_lt_base hBelow]
        simpa using fun hZero => h.ne' (Nat.digitChar_eq_zero.mp hZero)
      · rw [Nat.toDigits_of_base_le (by decide) (by omega), List.head?_append]
        have hHead := ih (digits / 10) (by omega) (by omega)
        cases hDigits : (Nat.toDigits 10 (digits / 10)).head? with
        | none => exact absurd (List.head?_eq_none_iff.mp hDigits) Nat.toDigits_ne_nil
        | some first => simpa [hDigits] using hHead

/-- Only zero is written with a leading zero. -/
theorem leading_toDigits (number : Nat) : Nat.toDigits 10 number = ['0'] ∨
    Nat.toDigits 10 number ≠ [] ∧ (Nat.toDigits 10 number).head? ≠ some '0' := by
  rcases Nat.eq_zero_or_pos number with rfl | hPos
  · exact .inl rfl
  · exact .inr ⟨Nat.toDigits_ne_nil, head?_toDigits hPos⟩

namespace ShortDecimal

/-- A decimal in the form in which it is written, and the number as which it is read. -/
structure Shows (decimal : ShortDecimal) (size : Float) : Prop where
  isDigit : decimal.digits.all Char.isDigit = true
  head?_ne : decimal.digits.head? ≠ some '0'
  length_le : decimal.digits.length ≤ JsonToken.largestDigits
  point_eq : decimal.digits = [] → decimal.point = 0
  magnitude_eq : Decimal.magnitude (digitsValue decimal.digits)
    (decimal.point - decimal.digits.length) = size

theorem shows_zero : Shows ⟨[], 0⟩ 0 where
  isDigit := rfl
  head?_ne := by simp
  length_le := by simp
  point_eq _ := rfl
  magnitude_eq := magnitude_zero _

theorem shows_ofScaled {digits : Nat} {exponent : Int} (h : 0 < digits)
    (hFew : digits < 10 ^ JsonToken.largestDigits) :
    Shows (ofScaled digits exponent) (Decimal.magnitude digits exponent) := by
  have hTrimmed := @trim_pos digits exponent h
  have hLe := trim_le digits exponent
  rw [ofScaled, if_neg h.ne']
  refine ⟨all_isDigit_toDigits _, head?_toDigits hTrimmed, ?_,
    fun hNone => absurd hNone Nat.toDigits_ne_nil, ?_⟩
  · exact (Nat.length_toDigits_le_iff (by decide) (by decide)).mpr (hLe.trans_lt hFew)
  · simp only [digitsValue_toDigits]
    rw [add_sub_cancel_left, magnitude_trim]

end ShortDecimal

/-! ## The bits of a number -/

theorem toNat_packComponents (sign : Sign) (exponent : BitVec 11) (mantissa : BitVec 52) :
    (packComponents Format.binary64 sign exponent mantissa).toNat =
      sign.toBitVec.toNat * 2 ^ 63 + exponent.toNat * 2 ^ 52 + mantissa.toNat := by
  rw [packComponents, BitVec.toNat_append, ← Nat.shiftLeft_add_eq_or_of_lt mantissa.isLt,
    BitVec.toNat_append, ← Nat.shiftLeft_add_eq_or_of_lt exponent.isLt]
  simp only [Nat.shiftLeft_eq]
  ring

section Bits

variable {number : Float} {sign : Sign} {significand : Nat} {scale : Int} {hPos : 0 < significand}

/-- The bits of a finite number other than zero. -/
theorem exists_bits (h : number.toModel.unpack = .finite sign significand scale hPos) :
    ∃ (exponent : BitVec 11) (mantissa : BitVec 52),
      number.toBits.toNat =
        sign.toBitVec.toNat * 2 ^ 63 + exponent.toNat * 2 ^ 52 + mantissa.toNat ∧
      Fields exponent mantissa significand scale := by
  obtain ⟨exponent, mantissa, hBits, hFields⟩ := exists_fields h
  exact ⟨exponent, mantissa, (congrArg BitVec.toNat hBits).trans (toNat_packComponents ..), hFields⟩

/-- The writer takes the bits apart as arithmetic does. -/
theorem ShortDecimal.unpack_eq (h : number.toModel.unpack = .finite sign significand scale hPos) :
    ShortDecimal.unpack number = (significand, scale) := by
  obtain ⟨exponent, mantissa, hBits, hFields⟩ := exists_bits h
  have hExponent := exponent.isLt
  have hMantissa := mantissa.isLt
  have hBiased : number.toBits.toNat / leadingBit % 0x800 = exponent.toNat := by
    unfold leadingBit
    omega
  have hFraction : number.toBits.toNat % leadingBit = mantissa.toNat := by
    unfold leadingBit
    omega
  simp only [ShortDecimal.unpack, hBiased, hFraction]
  cases hFields with
  | normal _ hNormal =>
      have hSome : exponent.toNat ≠ 0 := fun hZero => hNormal (BitVec.eq_of_toNat_eq hZero)
      rw [if_neg hSome]
      rfl
  | subnormal hZero _ =>
      subst hZero
      rfl

theorem abs_unpack (h : number.toModel.unpack = .finite sign significand scale hPos) :
    number.abs.toModel.unpack = .finite .positive significand scale hPos := by
  obtain ⟨_, _, _, hFields⟩ := exists_bits h
  obtain ⟨hStored, hLe⟩ := hFields.stored hPos
  show unpack Format.binary64 (pack Format.binary64 number.toModel.unpack.abs) = _
  rw [h]
  exact hStored.unpack_pack .positive hLe

theorem isNegative_iff (h : number.toModel.unpack = .finite sign significand scale hPos) :
    Layout.isNegative number = true ↔ sign = .negative := by
  obtain ⟨exponent, mantissa, hBits, _⟩ := exists_bits h
  have hExponent := exponent.isLt
  have hMantissa := mantissa.isLt
  rw [Layout.isNegative, decide_eq_true_iff, hBits]
  cases sign with
  | positive =>
      refine iff_of_false ?_ nofun
      change ¬ 0x8000000000000000 ≤ 0 * 2 ^ 63 + exponent.toNat * 2 ^ 52 + mantissa.toNat
      omega
  | negative =>
      refine iff_of_true ?_ rfl
      change 0x8000000000000000 ≤ 1 * 2 ^ 63 + exponent.toNat * 2 ^ 52 + mantissa.toNat
      omega

end Bits

/-- A finite number is a zero or is unpacked to a significand. -/
theorem unpack_of_isFinite {number : Float} (h : number.isFinite = true) :
    (∃ sign, number.toModel.unpack = .zero sign) ∨
      ∃ sign significand scale hPos,
        number.toModel.unpack = .finite sign significand scale hPos := by
  change number.toModel.unpack.isFinite = true at h
  cases hNumber : number.toModel.unpack with
  | notANumber => simp [hNumber, UnpackedFloat.isFinite] at h
  | infinity sign => simp [hNumber, UnpackedFloat.isFinite] at h
  | zero sign => exact .inl ⟨sign, rfl⟩
  | finite sign significand scale hPos => exact .inr ⟨sign, significand, scale, hPos, rfl⟩

/-- A finite number is its absolute value with its sign, also if it is zero. -/
theorem signed_abs {number : Float} (h : number.isFinite = true) :
    (if Layout.isNegative number then -number.abs else number.abs) = number := by
  rcases unpack_of_isFinite h with ⟨sign, hNumber⟩ | ⟨sign, significand, scale, hPos, hNumber⟩
  · rw [← ofModel_pack_unpack number, hNumber]
    cases sign <;> decide +kernel
  · have hAbs := abs_unpack hNumber
    have hSign := isNegative_iff hNumber
    conv_rhs => rw [← ofModel_pack_unpack number, hNumber]
    cases sign with
    | positive =>
        have hPlus : ¬ Layout.isNegative number = true := by
          intro hNegative
          cases hSign.mp hNegative
        rw [if_neg hPlus, ← ofModel_pack_unpack number.abs, hAbs]
    | negative =>
        rw [if_pos (hSign.mpr rfl)]
        show Float.ofModel (Float.Model.pack number.abs.toModel.unpack.neg) = _
        rw [hAbs]
        rfl

/-! ## The search -/

section Search

variable {number other : Float} {value : ℚ}

/-- No two positive numbers have one rank. -/
theorem eq_of_unpackedRank_eq {unpacked : UnpackedFloat} {significand : Nat} {scale : Int}
    {hPos : 0 < significand}
    (h : unpackedRank unpacked = unpackedRank (.finite .positive significand scale hPos)) :
    unpacked = .finite .positive significand scale hPos := by
  rcases unpacked with (_ | _) | _ | _ | ⟨_ | _, more, place, hMore⟩
  case finite.positive =>
    simp only [unpackedRank, toLex_inj, Prod.mk.injEq, Int.natCast_inj, true_and] at h
    obtain ⟨rfl, rfl⟩ := h
    rfl
  all_goals simp [unpackedRank] at h

/-- What compares equal to a number other than zero is that number. -/
theorem Holds.eq_of_beq (h : Holds number value) (hEqual : (other == number) = true) :
    other = number := by
  obtain ⟨significand, scale, hPos, hUnpack, _⟩ := h
  obtain ⟨_, _, hRank⟩ := beq_iff_rank.mp hEqual
  rw [rank, rank, hUnpack] at hRank
  rw [← ofModel_pack_unpack other, eq_of_unpackedRank_eq hRank, ← hUnpack, ofModel_pack_unpack]

theorem rank_zero : rank (0 : Float) = toLex (0, toLex (0, 0)) := by
  decide +kernel

theorem Holds.ne_zero (h : Holds number value) : number ≠ 0 := by
  rintro rfl
  obtain ⟨significand, scale, hPos, hUnpack, _⟩ := h
  have hZero := rank_zero
  rw [rank, hUnpack] at hZero
  simp [unpackedRank] at hZero

namespace ShortDecimal

variable {numerator denominator : Nat}

/-- The point stands in front of all digits. -/
theorem lt_leadingPoint (hNumerator : 0 < numerator) (hDenominator : 0 < denominator) :
    (numerator : ℚ) / denominator < 10 ^ leadingPoint numerator denominator := by
  have hPositive : (0 : ℚ) < denominator := by exact_mod_cast hDenominator
  rw [div_lt_iff₀ hPositive, leadingPoint]
  split
  · rw [zpow_natCast]
    have hWhole := (digitCount_le_iff digitCount_pos).mp
      (le_refl (digitCount (numerator / denominator)))
    exact_mod_cast (Nat.div_lt_iff_lt_mul hDenominator).mp hWhole
  · rename_i hBelow
    have hQuotient : 0 < (denominator - 1) / numerator := Nat.div_pos (by omega) hNumerator
    have hFirst := @point_le_decimal ((denominator - 1) / numerator) 0 hQuotient
    rw [zpow_zero, mul_one, add_zero] at hFirst
    have hProduct : (((denominator - 1) / numerator : Nat) : ℚ) * numerator < denominator := by
      have := Nat.div_mul_le_self (denominator - 1) numerator
      exact_mod_cast (by omega : (denominator - 1) / numerator * numerator < denominator)
    have hNumber : (0 : ℚ) < numerator := by exact_mod_cast hNumerator
    have hLt := (mul_le_mul_of_nonneg_right hFirst hNumber.le).trans_lt hProduct
    rw [← neg_sub, zpow_neg, inv_mul_eq_div, lt_div_iff₀ (by positivity), mul_comm]
    exact hLt

/-- The lower neighbour on a grid has no more digits than the grid. -/
theorem gridBelow_lt {places : Nat} {exponent : Int}
    (h : (numerator : ℚ) / denominator < 10 ^ (exponent + places)) :
    (gridBelow numerator denominator exponent).1 < 10 ^ places := by
  have hTen : (0 : ℚ) < 10 ^ exponent := by positivity
  have hBelow : ((gridBelow numerator denominator exponent).1 : ℚ) * 10 ^ exponent ≤
      numerator / denominator := by
    rw [← le_div_iff₀ hTen]
    calc ((gridBelow numerator denominator exponent).1 : ℚ)
        ≤ ((numerator * 10 ^ (-exponent).toNat : Nat) : ℚ) /
            ((denominator * 10 ^ exponent.toNat : Nat) : ℚ) := Nat.cast_div_le
      _ = numerator / denominator / 10 ^ exponent := by
          rw [zpow_eq_div (by norm_num) exponent]
          push_cast
          field_simp
  rw [zpow_add₀ (by norm_num), zpow_natCast, mul_comm] at h
  exact_mod_cast lt_of_mul_lt_mul_right (hBelow.trans_lt h) hTen.le

/-- What is taken from a grid reads back and is one of the two neighbours. -/
theorem onGrid?_spec {tie : Tie} {exponent : Int} {significand : Nat}
    (h : onGrid? tie number numerator denominator exponent = some significand) :
    (Decimal.magnitude significand exponent == number) = true ∧
      significand ≤ (gridBelow numerator denominator exponent).1 + 1 := by
  simp only [onGrid?] at h
  split at h
  · cases h
  · rename_i hRead _
    cases h
    exact ⟨hRead, Nat.le_succ _⟩
  · rename_i _ hRead
    cases h
    exact ⟨hRead, le_rfl⟩
  · rename_i hBelow hAbove
    have hNeighbour : significand = (gridBelow numerator denominator exponent).1 ∨
        significand = (gridBelow numerator denominator exponent).1 + 1 := by
      split at h
      · exact .inl (Option.some.inj h).symm
      · split at h
        · exact .inr (Option.some.inj h).symm
        · split at h
          · exact .inr (Option.some.inj h).symm
          · split at h
            · exact .inl (Option.some.inj h).symm
            · exact .inr (Option.some.inj h).symm
    rcases hNeighbour with rfl | rfl
    · exact ⟨hBelow, Nat.le_succ _⟩
    · exact ⟨hAbove, le_rfl⟩

/-- The digits of the exact value of a number. -/
theorem exact_lt {significand : Nat} {scale : Int} (h : Stored significand scale)
    (hLe : scale ≤ 971) :
    significand * 2 ^ scale.toNat * 5 ^ (-scale).toNat < 10 ^ JsonToken.largestDigits := by
  have hScale := h.scale_eq
  unfold totalExponent at hScale
  have hSignificand : significand < 2 ^ 53 := (Nat.log2_lt h.pos.ne').mp (by omega)
  -- A power of two or a power of five, never both.
  by_cases hWhole : 0 ≤ scale
  · have hPlaces : (-scale).toNat = 0 := by omega
    have hPower : 2 ^ scale.toNat ≤ 2 ^ 971 := pow_le_pow_right₀ (by decide) (by omega)
    rw [hPlaces, pow_zero, mul_one]
    have hFew : 2 ^ 53 * 2 ^ 971 < 10 ^ JsonToken.largestDigits := by decide +kernel
    exact (Nat.mul_le_mul hSignificand.le hPower).trans_lt hFew
  · have hPlaces : scale.toNat = 0 := by omega
    have hPower : 5 ^ (-scale).toNat ≤ 5 ^ 1074 := pow_le_pow_right₀ (by decide) (by omega)
    rw [hPlaces, pow_zero, mul_one]
    have hFew : 2 ^ 53 * 5 ^ 1074 < 10 ^ JsonToken.largestDigits := by decide +kernel
    exact (Nat.mul_le_mul hSignificand.le hPower).trans_lt hFew

/-- What the search takes from a grid of few places is read as the number. -/
theorem shows_onGrid (h : Holds number value) {tie : Tie} {places : Nat} {exponent : Int}
    {taken : Nat} (hPlaces : places ≤ 17)
    (hPoint : (numerator : ℚ) / denominator < 10 ^ (exponent + places))
    (hTaken : onGrid? tie number numerator denominator exponent = some taken) :
    Shows (ofScaled taken exponent) number := by
  obtain ⟨hRead, hNeighbour⟩ := onGrid?_spec hTaken
  have hSame := h.eq_of_beq hRead
  have hPositive : 0 < taken := by
    refine Nat.pos_of_ne_zero fun hZero => h.ne_zero ?_
    rw [← hSame, hZero, magnitude_zero]
  have hBelow := gridBelow_lt hPoint
  have hPower : 10 ^ places ≤ 10 ^ 17 := Nat.pow_le_pow_right (by decide) hPlaces
  have hFew : 10 ^ 17 < 10 ^ JsonToken.largestDigits := Nat.pow_lt_pow_right (by decide) (by decide)
  have hShown := @shows_ofScaled taken exponent hPositive (by omega)
  rwa [hSame] at hShown

/-- The exact value, which is written if the search finds nothing. -/
theorem shows_exact (h : Holds number value) :
    Shows (ofScaled ((ratio number).1 * 5 ^ (ratio number).2.log2) (-((ratio number).2.log2 : Int)))
      number := by
  obtain ⟨significand, scale, hStored, hLe, hUnpack, hValue⟩ := h.exists_stored
  simp only [ratio, unpack_eq hUnpack, Nat.pow_eq, Nat.log2_two_pow]
  have hPositive : 0 < significand * 2 ^ scale.toNat * 5 ^ (-scale).toNat := by
    have := hStored.pos
    positivity
  have hDecimal : ((significand * 2 ^ scale.toNat * 5 ^ (-scale).toNat : Nat) : ℚ) *
      10 ^ (-((-scale).toNat : Int)) = value := by
    have hTen : (10 : ℚ) ^ (-scale).toNat = 2 ^ (-scale).toNat * 5 ^ (-scale).toNat := by
      rw [← mul_pow]
      norm_num
    rw [← hValue, dyadic, zpow_eq_div two_ne_zero scale, zpow_neg, zpow_natCast, hTen]
    push_cast
    field_simp
  have hShown := @shows_ofScaled _ (-((-scale).toNat : Int)) hPositive (exact_lt hStored hLe)
  rw [← hDecimal] at h
  rwa [h.magnitude] at hShown

/-- The decimal of a positive number is read as this number. -/
theorem shows_ofPositive (h : Holds number value) (tie : Tie) :
    Shows (ofPositive tie number) number := by
  obtain ⟨significand, scale, hStored, _, hUnpack, _⟩ := h.exists_stored
  have hNumerator : 0 < (ratio number).1 := by
    simp only [ratio, unpack_eq hUnpack, Nat.pow_eq]
    exact Nat.mul_pos hStored.pos (by positivity)
  have hDenominator : 0 < (ratio number).2 := by
    simp only [ratio, unpack_eq hUnpack, Nat.pow_eq]
    positivity
  have hPoint := lt_leadingPoint hNumerator hDenominator
  simp only [ofPositive, Nat.pow_eq]
  -- That seventeen places suffice is not needed: the other case is read back as well.
  split
  · rename_i found hFound
    obtain ⟨index, hIndex, hGrid⟩ := List.exists_of_findSome?_eq_some hFound
    obtain ⟨taken, hTaken, rfl⟩ := Option.map_eq_some_iff.mp hGrid
    exact shows_onGrid h (List.mem_range.mp hIndex) (by rwa [sub_add_cancel]) hTaken
  · exact shows_exact h

/-- The decimal of a finite number is read as its absolute value. -/
theorem shows_ofFloat (h : number.isFinite = true) (tie : Tie) :
    Shows (ofFloat tie number) number.abs := by
  rcases unpack_of_isFinite h with ⟨sign, hNumber⟩ | ⟨sign, significand, scale, hPos, hNumber⟩
  · have hZero : (number == 0) = true ∧ number.abs = 0 := by
      rw [← ofModel_pack_unpack number, hNumber]
      cases sign <;> decide +kernel
    rw [ofFloat, if_pos hZero.1, hZero.2]
    exact shows_zero
  · have hSome : ¬ (number == 0) = true := by
      intro hEqual
      obtain ⟨_, _, hRank⟩ := beq_iff_rank.mp hEqual
      rw [rank_zero, rank, hNumber] at hRank
      cases sign <;> simp [unpackedRank] at hRank
    rw [ofFloat, if_neg hSome]
    exact shows_ofPositive ⟨_, _, _, abs_unpack hNumber, rfl⟩ tie

end ShortDecimal

end Search

end ForestGraph
