import Mathlib
import ForestGraph.Expansion.Equivalence

/-!
# The order of numbers

What the comparison of two graphs relies on in binary64 arithmetic, read off the model
that defines it.  The numbers other than NaN are ordered by a rank, a NaN is compared with
nothing, and a difference is NaN for two infinities of one sign only.
-/

namespace ForestGraph

open Float.Model (Format UnpackedFloat)
open Float.Model.UnpackedFloat (Sign)

/-! ## Ranks -/

/-- The place of an unpacked number in the order: the sign and whether it is infinite or
zero, then the exponent and the mantissa.  A NaN has no place and is put at zero. -/
def unpackedRank : UnpackedFloat → Int ×ₗ Int ×ₗ Int
  | .infinity .negative => toLex (-2, toLex (0, 0))
  | .finite .negative mantissa exponent _ => toLex (-1, toLex (-exponent, -mantissa))
  | .zero _ | .notANumber => toLex (0, toLex (0, 0))
  | .finite .positive mantissa exponent _ => toLex (1, toLex (exponent, mantissa))
  | .infinity .positive => toLex (2, toLex (0, 0))

/-- The place of a number in the order. -/
def rank (number : Float) : Int ×ₗ Int ×ₗ Int :=
  unpackedRank number.toModel.unpack

theorem compare_magnitudes (exponent other : Int) (mantissa more : Nat) :
    compare (toLex (exponent, (mantissa : Int))) (toLex (other, (more : Int))) =
      (compare exponent other).then (compare mantissa more) := by
  have hMantissas : compare (mantissa : Int) (more : Int) = compare mantissa more := by
    simp only [compare, compareOfLessAndEq, Int.ofNat_lt, Int.ofNat_inj]
  rw [← hMantissas]
  rfl

theorem compare_neg_magnitudes (exponent other : Int) (mantissa more : Nat) :
    compare (toLex (-exponent, -(mantissa : Int))) (toLex (-other, -(more : Int))) =
      ((compare exponent other).then (compare mantissa more)).swap := by
  have hNeg (first second : Int) : compare (-first) (-second) = (compare first second).swap := by
    rw [← Std.OrientedOrd.eq_swap]
    simp only [compare, compareOfLessAndEq, Int.neg_lt_neg_iff, Int.neg_inj, @eq_comm _ second]
  rw [← compare_magnitudes]
  show (compare (-exponent) (-other)).then (compare (-(mantissa : Int)) (-(more : Int))) =
    ((compare exponent other).then (compare (mantissa : Int) (more : Int))).swap
  rw [hNeg, hNeg, Ordering.swap_then]

/-- Unpacked numbers other than NaN are compared by their ranks. -/
theorem unpacked_compare {left right : UnpackedFloat} (hLeft : left.isNaN = false)
    (hRight : right.isNaN = false) :
    left.compare right = some (compare (unpackedRank left) (unpackedRank right)) := by
  rcases left with (_ | _) | _ | _ | ⟨_ | _, mantissa, exponent, hPos⟩
  case notANumber => cases hLeft
  all_goals rcases right with (_ | _) | _ | _ | ⟨_ | _, more, other, hMore⟩
  case finite.negative.finite.negative =>
    exact congrArg some (compare_neg_magnitudes exponent other mantissa more).symm
  case finite.positive.finite.positive =>
    exact congrArg some (compare_magnitudes exponent other mantissa more).symm
  -- The first component decides all other cases.
  all_goals first | rfl | cases hRight

/-- A NaN is compared with nothing. -/
theorem unpacked_compare_of_isNaN {left right : UnpackedFloat}
    (h : left.isNaN = true ∨ right.isNaN = true) : left.compare right = none := by
  rcases h with h | h
  · cases left <;> first | rfl | cases h
  · cases right with
    | notANumber => rcases left with _ | _ | _ | _ <;> rfl
    | _ => cases h

theorem unpacked_compare_eq_some_iff {left right : UnpackedFloat} {order : Ordering} :
    left.compare right = some order ↔ left.isNaN = false ∧ right.isNaN = false ∧
      compare (unpackedRank left) (unpackedRank right) = order := by
  by_cases h : left.isNaN = true ∨ right.isNaN = true
  · rw [unpacked_compare_of_isNaN h]
    rcases h with h | h <;> simp [h]
  · simp only [not_or, Bool.not_eq_true] at h
    simp [unpacked_compare h.1 h.2, h]

section Order

variable {left right third : Float}

/-- A number is at most another if its rank is and neither is a NaN. -/
theorem le_iff_rank :
    left ≤ right ↔ left.isNaN = false ∧ right.isNaN = false ∧ rank left ≤ rank right := by
  show decide (UnpackedFloat.le left.toModel.unpack right.toModel.unpack = true) = true ↔ _
  simp only [decide_eq_true_iff, UnpackedFloat.le, Option.any_eq_true,
    unpacked_compare_eq_some_iff, ← Ordering.ne_gt_iff_isLE, and_assoc, exists_and_left,
    exists_eq_left', compare_le_iff_le]
  rfl

theorem lt_iff_rank :
    left < right ↔ left.isNaN = false ∧ right.isNaN = false ∧ rank left < rank right := by
  show decide (UnpackedFloat.lt left.toModel.unpack right.toModel.unpack = true) = true ↔ _
  simp only [decide_eq_true_iff, UnpackedFloat.lt, beq_iff_eq, unpacked_compare_eq_some_iff,
    compare_lt_iff_lt]
  rfl

theorem beq_iff_rank :
    (left == right) = true ↔ left.isNaN = false ∧ right.isNaN = false ∧ rank left = rank right := by
  show UnpackedFloat.beq left.toModel.unpack right.toModel.unpack = true ↔ _
  simp only [UnpackedFloat.beq, beq_iff_eq, unpacked_compare_eq_some_iff, compare_eq_iff_eq]
  rfl

theorem number_le_trans (h : left ≤ right) (hThird : right ≤ third) : left ≤ third := by
  obtain ⟨hLeft, _, hRank⟩ := le_iff_rank.mp h
  obtain ⟨_, hLast, hMore⟩ := le_iff_rank.mp hThird
  exact le_iff_rank.mpr ⟨hLeft, hLast, hRank.trans hMore⟩

theorem number_le_of_lt (h : left < right) : left ≤ right := by
  obtain ⟨hLeft, hRight, hRank⟩ := lt_iff_rank.mp h
  exact le_iff_rank.mpr ⟨hLeft, hRight, hRank.le⟩

/-- Numbers other than NaN are totally ordered. -/
theorem number_le_of_not_lt (hLeft : left.isNaN = false) (hRight : right.isNaN = false)
    (h : ¬ left < right) : right ≤ left := by
  refine le_iff_rank.mpr ⟨hRight, hLeft, not_lt.mp fun hRank => h ?_⟩
  exact lt_iff_rank.mpr ⟨hLeft, hRight, hRank⟩

end Order

/-! ## The larger of two numbers -/

/-- The larger number is bounded by what bounds both, where a NaN does not count. -/
theorem larger_le_iff {total error bound : Float} (hTotal : total.isNaN = false) :
    larger total error ≤ bound ↔
      total ≤ bound ∧ (error.isNaN = true ∨ error ≤ bound) := by
  unfold larger
  rw [if_neg (Bool.eq_false_iff.mp hTotal)]
  by_cases hError : error.isNaN = true
  · rw [if_pos hError]
    exact ⟨fun h => ⟨h, .inl hError⟩, And.left⟩
  rw [if_neg hError, or_iff_right hError]
  split
  · rename_i hLess
    exact ⟨fun h => ⟨number_le_trans (number_le_of_lt hLess) h, h⟩, And.right⟩
  · rename_i hLess
    have hBelow := number_le_of_not_lt hTotal (Bool.eq_false_iff.mpr hError) hLess
    exact ⟨fun h => ⟨h, number_le_trans hBelow h⟩, And.left⟩

theorem isNaN_larger {total error : Float} (hTotal : total.isNaN = false) :
    (larger total error).isNaN = false := by
  unfold larger
  rw [if_neg (Bool.eq_false_iff.mp hTotal)]
  by_cases hError : error.isNaN = true
  · rwa [if_pos hError]
  · rw [if_neg hError]
    split
    · exact Bool.eq_false_iff.mpr hError
    · exact hTotal

/-! ## Differences -/

section Packing

open Float.Model.UnpackedFloat

/-- The bits of a NaN have the exponent of an infinity and a mantissa. -/
theorem unpack_isNaN_iff {spec : Format} {bits : BitVec spec.numBits} :
    (unpack spec bits).isNaN = true ↔ unpackExponent bits = -1#_ ∧ unpackMantissa bits ≠ 0#_ := by
  have hBits : spec.exponentBits ≠ 0 := Nat.pos_iff_ne_zero.mp spec.he
  by_cases hExponent : unpackExponent bits = -1#_ <;>
    by_cases hZero : unpackExponent bits = 0#_ <;>
    by_cases hMantissa : unpackMantissa bits = 0#_ <;>
    simp [unpack, hExponent, hZero, hMantissa, UnpackedFloat.isNaN, hBits]

/-- Packing makes no NaN of anything else. -/
theorem unpack_pack_isNaN (number : UnpackedFloat) :
    (unpack Format.binary64 (pack Format.binary64 number)).isNaN = number.isNaN := by
  rw [Bool.eq_iff_iff, unpack_isNaN_iff]
  fun_cases pack with
  | case1 => simp [packedNaN, UnpackedFloat.isNaN]
  | case2 sign => simp [packedInfinity, UnpackedFloat.isNaN]
  | case3 sign => simp [packedZero, UnpackedFloat.isNaN]
  | case4 sign mantissa exponent hPos biased hLarge => simp [packedInfinity, UnpackedFloat.isNaN]
  | case5 sign mantissa exponent hPos log biased hLarge hNormal =>
    -- Below the exponent of infinity the exponent is kept.
    have hExponent : BitVec.ofNat 11 biased ≠ -1#11 := by
      intro h
      have hBiased : biased % 2 ^ 11 = 2 ^ 11 - 1 := congrArg BitVec.toNat h
      change ¬ 2 ^ 11 ≤ biased + 1 at hLarge
      omega
    simp only [unpackExponent_packComponents, hExponent, UnpackedFloat.isNaN]
    simp
  | case6 sign mantissa exponent hPos log biased hLarge hSubnormal =>
    simp [UnpackedFloat.isNaN]

end Packing

/-- Rounding makes no NaN. -/
theorem round_isNaN (spec : Format) (sign : Sign) (mantissa : Nat) (exponent : Int) :
    (UnpackedFloat.round spec sign mantissa exponent).isNaN = false := by
  simp only [UnpackedFloat.round, UnpackedFloat.roundWithAccuracy]
  split <;> rfl

theorem normalize_isNaN (spec : Format) (mantissa exponent : Int) (sign : Sign) :
    (UnpackedFloat.normalize spec mantissa exponent sign).isNaN = false := by
  unfold UnpackedFloat.normalize
  split
  · exact round_isNaN ..
  · rfl
  · exact round_isNaN ..

theorem unpacked_abs_isNaN (number : UnpackedFloat) : number.abs.isNaN = number.isNaN := by
  cases number <;> rfl

/-- What is not infinite has no NaN as its difference from another number. -/
theorem unpacked_sub_isNaN (spec : Format) {left right : UnpackedFloat}
    (hFinite : left.isFinite = true) (hRight : right.isNaN = false) :
    (UnpackedFloat.sub spec left right).isNaN = false := by
  cases left with
  | infinity sign => cases hFinite
  | notANumber => cases hFinite
  | zero sign =>
      cases right with
      | notANumber => cases hRight
      | infinity other => rfl
      | zero other => cases sign <;> cases other <;> rfl
      | finite other more power hMore => rfl
  | finite sign mantissa exponent hPos =>
      cases right with
      | notANumber => cases hRight
      | infinity other => rfl
      | zero other => rfl
      | finite other more power hMore => exact normalize_isNaN ..

/-- A difference of unpacked numbers is NaN for two infinities of one sign only. -/
theorem unpacked_sub_isNaN_iff (spec : Format) {left right : UnpackedFloat}
    (hLeft : left.isNaN = false) (hRight : right.isNaN = false) :
    (UnpackedFloat.sub spec left right).isNaN = true ↔
      left.isInf = true ∧ unpackedRank left = unpackedRank right := by
  cases left with
  | notANumber => cases hLeft
  | zero sign =>
      have hSub := @unpacked_sub_isNaN spec (.zero sign) right rfl hRight
      simp [hSub, UnpackedFloat.isInf]
  | finite sign mantissa exponent hPos =>
      have hSub := @unpacked_sub_isNaN spec (.finite sign mantissa exponent hPos) right rfl hRight
      simp [hSub, UnpackedFloat.isInf]
  | infinity sign =>
      cases right with
      | notANumber => cases hRight
      | infinity other =>
          cases sign <;> cases other <;>
            simp [UnpackedFloat.sub, UnpackedFloat.isNaN, UnpackedFloat.isInf, unpackedRank] <;>
            rfl
      | zero other => cases sign <;> simp [UnpackedFloat.sub, UnpackedFloat.isNaN, unpackedRank]
      | finite other mantissa exponent hPos =>
          cases sign <;> cases other <;>
            simp [UnpackedFloat.sub, UnpackedFloat.isNaN, unpackedRank]

theorem unpacked_sub_of_isNaN (spec : Format) {left right : UnpackedFloat}
    (h : left.isNaN = true ∨ right.isNaN = true) :
    (UnpackedFloat.sub spec left right).isNaN = true := by
  rcases h with h | h
  · cases left <;> first | rfl | cases h
  · cases right with
    | notANumber => cases left <;> rfl
    | _ => cases h

/-- The difference of two numbers is NaN if one is, or if they are the same infinity. -/
theorem sub_isNaN_iff {left right : Float} :
    (left - right).isNaN = true ↔ (left.isNaN = true ∨ right.isNaN = true) ∨
      left.isInf = true ∧ (left == right) = true := by
  have hPacked : (left - right).isNaN =
      (UnpackedFloat.sub Format.binary64 left.toModel.unpack right.toModel.unpack).isNaN :=
    unpack_pack_isNaN _
  rw [hPacked]
  by_cases h : left.isNaN = true ∨ right.isNaN = true
  · exact iff_of_true (unpacked_sub_of_isNaN _ h) (.inl h)
  · rw [or_iff_right h]
    simp only [not_or, Bool.not_eq_true] at h
    rw [unpacked_sub_isNaN_iff Format.binary64 h.1 h.2, beq_iff_rank]
    exact and_congr_right fun _ => ⟨fun hRank => ⟨h.1, h.2, hRank⟩, fun hEqual => hEqual.2.2⟩

theorem abs_isNaN (number : Float) : number.abs.isNaN = number.isNaN :=
  (unpack_pack_isNaN _).trans (unpacked_abs_isNaN _)

/-- A finite number less itself is zero. -/
theorem abs_sub_self {number : Float} (h : number.isFinite = true) :
    (number - number).abs = 0 := by
  have hZero : UnpackedFloat.sub Format.binary64 number.toModel.unpack number.toModel.unpack =
      .zero .positive := by
    change number.toModel.unpack.isFinite = true at h
    cases hNumber : number.toModel.unpack with
    | notANumber => simp [hNumber, UnpackedFloat.isFinite] at h
    | infinity sign => simp [hNumber, UnpackedFloat.isFinite] at h
    | zero sign => cases sign <;> rfl
    | finite sign mantissa exponent hPos =>
        simp [UnpackedFloat.sub, UnpackedFloat.normalize]
  show Float.ofModel (Float.Model.pack
    (Float.Model.pack (UnpackedFloat.sub _ _ _)).unpack.abs) = 0
  rw [hZero]
  decide +kernel

/-! ## Tolerances -/

theorem isNaN_of_isFinite {number : Float} (h : number.isFinite = true) :
    number.isNaN = false := by
  change number.toModel.unpack.isFinite = true at h
  show number.toModel.unpack.isNaN = false
  cases hNumber : number.toModel.unpack <;>
    simp_all [UnpackedFloat.isFinite, UnpackedFloat.isNaN]

theorem isInf_of_isFinite {number : Float} (h : number.isFinite = true) :
    number.isInf = false := by
  change number.toModel.unpack.isFinite = true at h
  show number.toModel.unpack.isInf = false
  cases hNumber : number.toModel.unpack <;>
    simp_all [UnpackedFloat.isFinite, UnpackedFloat.isInf]

theorem isInf_of_not_isFinite {number : Float} (hNumber : number.isNaN = false)
    (h : number.isFinite = false) : number.isInf = true := by
  change number.toModel.unpack.isNaN = false at hNumber
  change number.toModel.unpack.isFinite = false at h
  show number.toModel.unpack.isInf = true
  cases hUnpacked : number.toModel.unpack <;>
    simp_all [UnpackedFloat.isFinite, UnpackedFloat.isNaN, UnpackedFloat.isInf]

/-- Infinity is above every finite number. -/
theorem not_infinity_le {bound : Float} (h : bound.isFinite = true) : ¬ infinity ≤ bound := by
  intro hLe
  obtain ⟨_, _, hRank⟩ := le_iff_rank.mp hLe
  change bound.toModel.unpack.isFinite = true at h
  have hInfinity : rank infinity = toLex (2, toLex (0, 0)) := by decide +kernel
  rw [hInfinity, rank] at hRank
  rcases hBound : bound.toModel.unpack with _ | _ | _ | ⟨_ | _, mantissa, exponent, hPos⟩ <;>
    simp_all [UnpackedFloat.isFinite, unpackedRank, Prod.Lex.le_iff]

theorem isTolerance_eq_true_iff {bound : Float} :
    isTolerance bound = true ↔ bound.isFinite = true ∧ ¬ bound < 0 := by
  simp [isTolerance]

/-- A tolerance bounds zero, but not infinity. -/
theorem bounds_of_isTolerance {bound : Float} (h : isTolerance bound = true) :
    0 ≤ bound ∧ ¬ infinity ≤ bound := by
  obtain ⟨hFinite, hNegative⟩ := isTolerance_eq_true_iff.mp h
  have hZero : (0 : Float).isNaN = false := by decide +kernel
  exact ⟨number_le_of_not_lt (isNaN_of_isFinite hFinite) hZero hNegative,
    not_infinity_le hFinite⟩

end ForestGraph
