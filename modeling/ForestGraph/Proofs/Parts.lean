import Mathlib.Data.List.Zip
import ForestGraph.Proofs.Features
import ForestGraph.Proofs.Growth

/-!
# Emitted rules and predictors

An emitted rule or predictor is read as what the rule or predictor gives for the
numbers that the features are read as, to the last bit.  The dot product is
emitted with its operands exchanged, which makes no difference because the
product of two numbers does not depend on their order.
-/

namespace ForestGraph

/-! ## Exchanged products -/

/-- The sign of a product does not depend on the order. -/
theorem sign_mul_comm (left right : Float.Model.UnpackedFloat.Sign) :
    left * right = right * left := by
  cases left <;> cases right <;> rfl

/-- The product of two unpacked numbers does not depend on their order: only the signs
of infinities and zeros are combined, and NaN absorbs everything. -/
theorem unpacked_mul_comm (spec : Float.Model.Format) (first second : Float.Model.UnpackedFloat) :
    Float.Model.UnpackedFloat.mul spec first second =
      Float.Model.UnpackedFloat.mul spec second first := by
  cases first with
  | notANumber => cases second <;> rfl
  | infinity sign =>
      cases second with
      | notANumber | zero => rfl
      | infinity other | finite other =>
          exact congrArg Float.Model.UnpackedFloat.infinity (sign_mul_comm sign other)
  | zero sign =>
      cases second with
      | notANumber | infinity => rfl
      | zero other | finite other =>
          exact congrArg Float.Model.UnpackedFloat.zero (sign_mul_comm sign other)
  | finite sign mantissa exponent =>
      cases second with
      | notANumber => rfl
      | infinity other =>
          exact congrArg Float.Model.UnpackedFloat.infinity (sign_mul_comm sign other)
      | zero other =>
          exact congrArg Float.Model.UnpackedFloat.zero (sign_mul_comm sign other)
      | finite other otherMantissa otherExponent =>
          show Float.Model.UnpackedFloat.roundWithAccuracy spec (sign * other)
            (mantissa * otherMantissa) (exponent + otherExponent) _ = _
          rw [sign_mul_comm, Nat.mul_comm, Int.add_comm]
          rfl

/-- The product of two numbers does not depend on their order, also for zeros,
infinities and NaNs. -/
theorem float_mul_comm (left right : Float) : left * right = right * left := by
  show Float.ofModel (Float.Model.pack (Float.Model.UnpackedFloat.mul _ _ _)) =
    Float.ofModel (Float.Model.pack (Float.Model.UnpackedFloat.mul _ _ _))
  rw [unpacked_mul_comm]

theorem dotProduct_comm (left right : List Float) :
    dotProduct left right = dotProduct right left := by
  unfold dotProduct
  rw [← List.zip_swap right left, List.foldl_map]
  simp only [Prod.fst_swap, Prod.snd_swap, float_mul_comm]

namespace Rebuild.Succeeds

variable {before after : Rebuild} {result : Selection}

/-! ## Operations -/

/-- Emitted numbers are read as they are. -/
theorem reals {numbers : List Float} (h : Succeeds (emitReals numbers) before result after) :
    Emits before after .real numbers.length result ∧
      ∀ {vector : List Float}, Evaluates before.emitted vector →
        Reads after.emitted vector result (numbers.map .real) := by
  unfold emitReals at h
  have hEmits := emits_of_emit rfl rfl h
  refine ⟨by simpa [Constants.values, Constants.type] using hEmits,
    fun ⟨hTyped, known, hKnown⟩ => ?_⟩
  exact reads_of_emit rfl rfl h hTyped hKnown rfl

/-- Emitted truth values are read as they are. -/
theorem booleans {truths : List Bool} (h : Succeeds (emitBooleans truths) before result after) :
    Emits before after .boolean truths.length result ∧
      ∀ {vector : List Float}, Evaluates before.emitted vector →
        Reads after.emitted vector result (truths.map .boolean) := by
  unfold emitBooleans at h
  have hEmits := emits_of_emit rfl rfl h
  refine ⟨by simpa [Constants.values, Constants.type] using hEmits,
    fun ⟨hTyped, known, hKnown⟩ => ?_⟩
  exact reads_of_emit rfl rfl h hTyped hKnown rfl

theorem sum {elements : Selection} (h : Succeeds (emit (.sum elements)) before result after) :
    Emits before after .real 1 result ∧
      ∀ {vector numbers : List Float},
        Reads before.emitted vector elements (numbers.map .real) →
        Reads after.emitted vector result [.real (sequentialSum numbers)] := by
  refine ⟨emits_of_emit rfl rfl h, fun ⟨hTyped, known, hKnown, hRead⟩ => ?_⟩
  exact reads_of_emit rfl rfl h hTyped hKnown
    (Node.compute_sum (Evaluation.readReals_eq_ok_iff.mpr hRead) _)

theorem not {elements : Selection} (h : Succeeds (emit (.not elements)) before result after) :
    Emits before after .boolean elements.length result ∧
      ∀ {vector : List Float} {truths : List Bool},
        Reads before.emitted vector elements (truths.map .boolean) →
        Reads after.emitted vector result (truths.map fun truth => .boolean (!truth)) := by
  refine ⟨emits_of_emit rfl rfl h, fun ⟨hTyped, known, hKnown, hRead⟩ => ?_⟩
  refine reads_of_emit rfl rfl h hTyped hKnown ?_
  simp only [Node.compute, Evaluation.readBooleans_eq_ok_iff.mpr hRead]
  rfl

/-- Only the chosen selection has to be known. -/
theorem select {input0 input1 selector : Selection}
    (h : Succeeds (emit (.select input0 input1 selector)) before result after) :
    Emits before after .real input0.length result ∧
      ∀ {vector : List Float} {truth : Bool} {values : List Value},
        Reads before.emitted vector selector [.boolean truth] →
        Reads before.emitted vector (if truth then input1 else input0) values →
        Reads after.emitted vector result values := by
  refine ⟨emits_of_emit rfl rfl h, fun ⟨hTyped, known, hKnown, hSelector⟩ hChosen => ?_⟩
  exact reads_of_emit rfl rfl h hTyped hKnown (Node.compute_select
    (Evaluation.readSelector_of_read hSelector) (hChosen.read hKnown) _)

/-- A multiplexer of two truth values. -/
theorem multiplexer {first second selector : Selection} (hFirst : first.length = 1)
    (h : Succeeds (emit (.multiplexer (first ++ second) selector)) before result after) :
    Emits before after .boolean 1 result ∧
      ∀ {vector : List Float} {truth : Bool} {values : List Value},
        Reads before.emitted vector selector [.boolean truth] →
        Reads before.emitted vector (if truth then second else first) values →
        Reads after.emitted vector result values := by
  -- The check of the node says that there are two elements to choose from.
  have hTyped := ((succeeds_emit_iff rfl).mp h).1
  refine ⟨emits_of_emit rfl rfl h, fun {vector truth values} hSelector hChosen => ?_⟩
  obtain ⟨hNodes, known, hKnown, hTruth⟩ := hSelector
  have hShape := hTyped.shape
  simp only [Node.checkShape, except_bind_eq_ok_iff, Node.checkExtent_eq_ok_iff,
    List.length_append] at hShape
  obtain ⟨_, hTwo, _⟩ := hShape
  obtain ⟨element, rfl⟩ := List.length_eq_one_iff.mp hFirst
  obtain ⟨other, rfl⟩ := List.length_eq_one_iff.mp (show second.length = 1 by omega)
  have hElement : Selection.element ([element] ++ [other]) truth.toNat =
      .ok (if truth then [other] else [element]) := by
    cases truth <;> rfl
  exact reads_of_emit rfl rfl h hNodes hKnown (Node.compute_multiplexer
    (Evaluation.readSelector_of_read hTruth) hElement (hChosen.read hKnown) _)

theorem dotProduct {left right : Selection}
    (h : Succeeds (emit (.dotProduct left right)) before result after) :
    Emits before after .real 1 result ∧
      ∀ {vector first second : List Float},
        Reads before.emitted vector left (first.map .real) →
        Reads before.emitted vector right (second.map .real) →
        Reads after.emitted vector result [.real (ForestGraph.dotProduct first second)] := by
  refine ⟨emits_of_emit rfl rfl h, fun ⟨hTyped, known, hKnown, hLeft⟩ hRight => ?_⟩
  exact reads_of_emit rfl rfl h hTyped hKnown
    (Node.compute_dotProduct (Evaluation.readReals_eq_ok_iff.mpr hLeft)
      (Evaluation.readReals_eq_ok_iff.mpr (hRight.read hKnown)) _)

/-- The comparison of two numbers. -/
theorem compare {comparison : Comparison} {left right : Selection}
    (h : Succeeds (emit (.compare comparison left right)) before result after) :
    Emits before after .boolean left.length result ∧
      ∀ {vector : List Float} {first second : Float},
        Reads before.emitted vector left [.real first] →
        Reads before.emitted vector right [.real second] →
        Reads after.emitted vector result [.boolean (comparison.holds first second)] := by
  refine ⟨emits_of_emit rfl rfl h, fun {vector first second} hLeft hRight => ?_⟩
  obtain ⟨hTyped, known, hKnown, hLeftRead⟩ := hLeft
  have hFirst : known.readReals left = .ok [first] :=
    Evaluation.readReals_eq_ok_iff.mpr hLeftRead
  have hSecond : known.readReals right = .ok [second] :=
    Evaluation.readReals_eq_ok_iff.mpr (hRight.read hKnown)
  exact reads_of_emit rfl rfl h hTyped hKnown (Node.compute_compare hFirst hSecond _ _)

end Rebuild.Succeeds

namespace Rebuild

variable {before after : Rebuild} {result : Selection}

/-- Constants can be emitted at any time. -/
theorem exists_emit_constant (before : Rebuild) (constants : Constants) :
    ∃ result after, Succeeds (emit (.constant constants)) before result after :=
  exists_emit rfl ⟨by simp [Node.inputs], rfl⟩

/-- Numbers can be summed. -/
theorem exists_emit_sum {elements : Selection}
    (hType : Selection.HasType before.emitted .real elements) :
    ∃ result after, Succeeds (emit (.sum elements)) before result after :=
  exists_emit rfl ⟨by simpa [Node.inputs] using hType, rfl⟩

/-- Truth values can be negated. -/
theorem exists_emit_not {elements : Selection}
    (hType : Selection.HasType before.emitted .boolean elements) :
    ∃ result after, Succeeds (emit (.not elements)) before result after :=
  exists_emit rfl ⟨by simpa [Node.inputs] using hType, rfl⟩

/-- As many numbers as there are on the other side can be multiplied with them. -/
theorem exists_emit_dotProduct {left right : Selection}
    (hLeft : Selection.HasType before.emitted .real left)
    (hRight : Selection.HasType before.emitted .real right) (hSize : right.length = left.length) :
    ∃ result after, Succeeds (emit (.dotProduct left right)) before result after :=
  exists_emit rfl ⟨by simpa [Node.inputs] using ⟨hLeft, hRight⟩,
    Node.checkExtent_eq_ok_iff.mpr hSize⟩

/-- As many numbers as there are on the other side can be compared with them. -/
theorem exists_emit_compare {comparison : Comparison} {left right : Selection}
    (hLeft : Selection.HasType before.emitted .real left)
    (hRight : Selection.HasType before.emitted .real right) (hSize : right.length = left.length) :
    ∃ result after, Succeeds (emit (.compare comparison left right)) before result after :=
  exists_emit rfl ⟨by simpa [Node.inputs] using ⟨hLeft, hRight⟩,
    Node.checkExtent_eq_ok_iff.mpr hSize⟩

/-- One truth value can select between numbers. -/
theorem exists_emit_select {input0 input1 selector : Selection}
    (hFirst : Selection.HasType before.emitted .real input0)
    (hSecond : Selection.HasType before.emitted .real input1)
    (hSize : input1.length = input0.length)
    (hSelector : Selection.HasType before.emitted .boolean selector)
    (hOne : selector.length = 1) :
    ∃ result after, Succeeds (emit (.select input0 input1 selector)) before result after := by
  refine exists_emit rfl ⟨?_, ?_⟩
  · simpa [Node.inputs] using ⟨hFirst, hSecond, hSelector⟩
  · simp [Node.checkShape, except_bind_eq_ok_iff, Node.checkExtent_eq_ok_iff, hSize, hOne]

/-- One truth value can choose between two. -/
theorem exists_emit_multiplexer {first second selector : Selection}
    (hFirst : Selection.HasType before.emitted .boolean first) (hFirstSize : first.length = 1)
    (hSecond : Selection.HasType before.emitted .boolean second) (hSecondSize : second.length = 1)
    (hSelector : Selection.HasType before.emitted .boolean selector)
    (hOne : selector.length = 1) :
    ∃ result after, Succeeds (emit (.multiplexer (first ++ second) selector)) before result
      after := by
  refine exists_emit rfl ⟨?_, ?_⟩
  · have hElements := Selection.hasType_append_iff.mpr ⟨hFirst, hSecond⟩
    simpa [Node.inputs] using ⟨hElements, hSelector⟩
  · simp [Node.checkShape, except_bind_eq_ok_iff, Node.checkExtent_eq_ok_iff, hFirstSize,
      hSecondSize, hOne]

@[simp] theorem succeeds_part_iff {selection : Except Error Selection} :
    Succeeds (part selection) before result after ↔ selection = .ok result ∧ after = before := by
  unfold part
  cases selection with
  | error error => simp
  | ok selection => simp [eq_comm]

/-! ## Affine functions -/

/-- An emitted affine function is read as the value of the function. -/
theorem Succeeds.affine {function : Affine} {features : Selection}
    (h : Succeeds (function.emit features) before result after) :
    function.width ≤ features.length ∧ Emits before after .real 1 result ∧
      ∀ {vector numbers : List Float},
        Reads before.emitted vector features (numbers.map .real) →
        ∃ value, function.apply numbers = .ok value ∧
          Reads after.emitted vector result [.real value] := by
  unfold Affine.emit at h
  obtain ⟨leading, state, hLeading, h⟩ := succeeds_bind_iff.mp h
  obtain ⟨hRange, rfl⟩ := succeeds_part_iff.mp hLeading
  obtain ⟨hWidth, rfl⟩ := Selection.range_eq_ok_iff.mp hRange
  rw [Nat.zero_add] at hWidth
  obtain ⟨weights, state1, hWeights, h⟩ := succeeds_bind_iff.mp h
  obtain ⟨product, state2, hProduct, h⟩ := succeeds_bind_iff.mp h
  obtain ⟨bias, state3, hBias, hSum⟩ := succeeds_bind_iff.mp h
  obtain ⟨hWeightsEmits, hWeightsReads⟩ := hWeights.reals
  obtain ⟨hProductEmits, hProductReads⟩ := hProduct.dotProduct
  obtain ⟨hBiasEmits, hBiasReads⟩ := hBias.reals
  obtain ⟨hSumEmits, hSumReads⟩ := hSum.sum
  have hGrows := hWeightsEmits.grows.trans (hProductEmits.grows.trans hBiasEmits.grows)
  refine ⟨hWidth, hSumEmits.before_grows hGrows, fun {vector numbers} hFeatures => ?_⟩
  have hLength : function.width ≤ numbers.length := by
    have hSame := hFeatures.length_eq
    rw [List.length_map] at hSame
    omega
  refine ⟨_, Affine.apply_eq_ok_iff.mpr ⟨hLength, rfl⟩, ?_⟩
  have hTaken : Reads state.emitted vector ((features.drop 0).take function.width)
      ((numbers.take function.width).map .real) := by
    rw [List.drop_zero, List.map_take]
    exact hFeatures.take function.width
  have hProductValue := hProductReads (hWeightsEmits.grows.nodes.reads hTaken)
    (hWeightsReads hFeatures.evaluates)
  rw [dotProduct_comm] at hProductValue
  exact hSumReads ((hBiasEmits.grows.nodes.reads hProductValue).append
    (hBiasReads hProductValue.evaluates))

/-- An affine function can be emitted for enough features. -/
theorem exists_emit_affine {function : Affine} {features : Selection}
    (hType : Selection.HasType before.emitted .real features)
    (hWidth : function.width ≤ features.length) :
    ∃ result after, Succeeds (function.emit features) before result after := by
  have hRange : features.range 0 function.width =
      .ok ((features.drop 0).take function.width) :=
    Selection.range_eq_ok_iff.mpr ⟨by omega, rfl⟩
  obtain ⟨weights, state1, hWeights⟩ :=
    exists_emit_constant before (.reals function.weights)
  have hWeightsEmits := (Succeeds.reals hWeights).1
  have hLeading : Selection.HasType state1.emitted .real
      ((features.drop 0).take function.width) := fun element hElement =>
    hWeightsEmits.grows.nodes.hasType hType element
      (List.mem_of_mem_drop (List.mem_of_mem_take hElement))
  have hSize : weights.length = ((features.drop 0).take function.width).length := by
    rw [hWeightsEmits.length, List.length_take, List.drop_zero, Nat.min_eq_left hWidth]
    rfl
  obtain ⟨product, state2, hProduct⟩ :=
    exists_emit_dotProduct hLeading hWeightsEmits.hasType hSize
  have hProductEmits := hProduct.dotProduct.1
  obtain ⟨bias, state3, hBias⟩ := exists_emit_constant state2 (.reals [function.bias])
  have hBiasEmits := (Succeeds.reals hBias).1
  have hTerms : Selection.HasType state3.emitted .real (product ++ bias) :=
    Selection.hasType_append_iff.mpr
      ⟨hBiasEmits.grows.nodes.hasType hProductEmits.hasType, hBiasEmits.hasType⟩
  obtain ⟨sum, state4, hSum⟩ := exists_emit_sum hTerms
  exact ⟨sum, state4, (succeeds_part_iff.mpr ⟨hRange, rfl⟩).bind
    (Succeeds.bind hWeights (hProduct.bind (Succeeds.bind hBias hSum)))⟩

/-! ## Rules and predictors -/

/-- An emitted rule is read as its decision. -/
theorem Succeeds.rule {rule : Rule} {features : Selection}
    (h : Succeeds (rule.emit features) before result after) :
    Covers features.length rule.lastFeature? ∧ Emits before after .boolean 1 result ∧
      ∀ {vector numbers : List Float},
        Reads before.emitted vector features (numbers.map .real) →
        ∃ decision, rule.holds numbers = .ok decision ∧
          Reads after.emitted vector result [.boolean decision] := by
  unfold Rule.emit at h
  cases rule with
  | threshold index bound =>
      obtain ⟨feature, state, hFeature, h⟩ := succeeds_bind_iff.mp h
      obtain ⟨hElement, rfl⟩ := succeeds_part_iff.mp hFeature
      obtain ⟨element, hPosition, rfl⟩ := Selection.element_eq_ok_iff.mp hElement
      obtain ⟨limit, state1, hLimit, hCompare⟩ := succeeds_bind_iff.mp h
      obtain ⟨hLimitEmits, hLimitReads⟩ := hLimit.reals
      obtain ⟨hCompareEmits, hCompareReads⟩ := hCompare.compare
      have hIndex := (List.getElem?_eq_some_iff.mp hPosition).1
      refine ⟨covers_some_iff.mpr hIndex, hCompareEmits.before_grows hLimitEmits.grows,
        fun {vector numbers} hFeatures => ?_⟩
      obtain ⟨value, hValue, hRead⟩ := hFeatures.element hPosition
      rw [List.getElem?_map, Option.map_eq_some_iff] at hValue
      obtain ⟨number, hNumber, rfl⟩ := hValue
      refine ⟨decide (number > bound), ?_, ?_⟩
      · simp only [Rule.holds, feature_eq_ok_iff.mpr hNumber]
        rfl
      · exact hCompareReads (hLimitEmits.grows.nodes.reads hRead)
          (hLimitReads hFeatures.evaluates)
  | linear function =>
      obtain ⟨value, state1, hValue, h⟩ := succeeds_bind_iff.mp h
      obtain ⟨zero, state2, hZero, hCompare⟩ := succeeds_bind_iff.mp h
      obtain ⟨hWidth, hValueEmits, hValueReads⟩ := hValue.affine
      obtain ⟨hZeroEmits, hZeroReads⟩ := hZero.reals
      obtain ⟨hCompareEmits, hCompareReads⟩ := hCompare.compare
      rw [hValueEmits.length] at hCompareEmits
      refine ⟨Affine.covers_iff.mpr hWidth,
        hCompareEmits.before_grows (hValueEmits.grows.trans hZeroEmits.grows),
        fun {vector numbers} hFeatures => ?_⟩
      obtain ⟨number, hNumber, hRead⟩ := hValueReads hFeatures
      refine ⟨decide (number > 0), ?_, ?_⟩
      · simp only [Rule.holds, hNumber]
        rfl
      · exact hCompareReads (hZeroEmits.grows.nodes.reads hRead) (hZeroReads hRead.evaluates)

/-- A rule can be emitted for features that cover those it reads. -/
theorem exists_emit_rule {rule : Rule} {features : Selection}
    (hType : Selection.HasType before.emitted .real features)
    (hCovers : Covers features.length rule.lastFeature?) :
    ∃ result after, Succeeds (rule.emit features) before result after := by
  cases rule with
  | threshold index bound =>
      have hIndex : index < features.length := covers_some_iff.mp hCovers
      have hElement : features.element index = .ok [features[index]] :=
        Selection.element_eq_ok_iff.mpr ⟨_, List.getElem?_eq_getElem hIndex, rfl⟩
      obtain ⟨limit, state1, hLimit⟩ := exists_emit_constant before (.reals [bound])
      have hLimitEmits := (Succeeds.reals hLimit).1
      have hFeature : Selection.HasType state1.emitted .real [features[index]] := by
        intro element hMem
        rw [List.mem_singleton.mp hMem]
        exact hLimitEmits.grows.nodes.hasType hType _ (List.getElem_mem hIndex)
      obtain ⟨truth, state2, hCompare⟩ := @exists_emit_compare _ .greater _ _ hFeature
        hLimitEmits.hasType hLimitEmits.length
      exact ⟨truth, state2, (succeeds_part_iff.mpr ⟨hElement, rfl⟩).bind
        (Succeeds.bind hLimit hCompare)⟩
  | linear function =>
      obtain ⟨value, state1, hValue⟩ := exists_emit_affine hType (Affine.covers_iff.mp hCovers)
      have hValueEmits := hValue.affine.2.1
      obtain ⟨zero, state2, hZero⟩ := exists_emit_constant state1 (.reals [0])
      have hZeroEmits := (Succeeds.reals hZero).1
      have hValueType := hZeroEmits.grows.nodes.hasType hValueEmits.hasType
      have hSize : zero.length = value.length := hZeroEmits.length.trans hValueEmits.length.symm
      obtain ⟨truth, state3, hCompare⟩ := @exists_emit_compare _ .greater _ _ hValueType
        hZeroEmits.hasType hSize
      exact ⟨truth, state3, hValue.bind (Succeeds.bind hZero hCompare)⟩

/-- An emitted predictor is read as its prediction. -/
theorem Succeeds.predictor {predictor : Predictor} {features : Selection}
    (h : Succeeds (predictor.emit features) before result after) :
    Covers features.length predictor.lastFeature? ∧ Emits before after .real 1 result ∧
      ∀ {vector numbers : List Float},
        Reads before.emitted vector features (numbers.map .real) →
        ∃ value, predictor.predict numbers = .ok value ∧
          Reads after.emitted vector result [.real value] := by
  cases predictor with
  | constant value =>
      have hConstant : Succeeds (emitReals [value]) before result after := h
      obtain ⟨hEmits, hReads⟩ := hConstant.reals
      refine ⟨covers_none _, hEmits, fun {vector numbers} hFeatures => ?_⟩
      exact ⟨value, rfl, hReads hFeatures.evaluates⟩
  | linear function =>
      have hAffine : Succeeds (function.emit features) before result after := h
      obtain ⟨hWidth, hEmits, hReads⟩ := hAffine.affine
      exact ⟨Affine.covers_iff.mpr hWidth, hEmits, hReads⟩

/-- A predictor can be emitted for features that cover those it reads. -/
theorem exists_emit_predictor {predictor : Predictor} {features : Selection}
    (hType : Selection.HasType before.emitted .real features)
    (hCovers : Covers features.length predictor.lastFeature?) :
    ∃ result after, Succeeds (predictor.emit features) before result after := by
  cases predictor with
  | constant value => exact exists_emit_constant before (.reals [value])
  | linear function => exact exists_emit_affine hType (Affine.covers_iff.mp hCovers)

end Rebuild

end ForestGraph
