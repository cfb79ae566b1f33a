import ForestGraph.Proofs.Failures
import ForestGraph.Proofs.NumberOrder

/-!
# What a comparison of graphs decides

A comparison visits the rows, the names and the elements, and adds every pair of values
to the deviation of its name.  A step keeps two facts: a deviation is within a tolerance
exactly if it was before and the two values agree, and it counts the truth values that
differ.  So the report is that of all pairs, and the pairs are those of the outputs that
both graphs compute.
-/

namespace ForestGraph

/-! ## Two values -/

/-- Two values are the same truth value, or numbers that are both NaN, the same infinity or
no further apart than a tolerance. -/
def Value.Agrees (tolerance : Float) : Value → Value → Prop
  | .boolean expected, .boolean actual => expected = actual
  | .real expected, .real actual =>
      (expected.isNaN = true ∧ actual.isNaN = true) ∨
        (expected.isInf = true ∧ (expected == actual) = true) ∨
        (expected - actual).abs ≤ tolerance
  | _, _ => False

/-- Whether two values are different truth values. -/
def Value.differ : Value × Value → Bool
  | (.boolean expected, .boolean actual) => expected != actual
  | _ => false

/-- A NaN agrees with no number: it equals nothing, and no difference from it is bounded. -/
theorem Value.not_agrees_of_isNaN_ne {tolerance expected actual : Float}
    (h : expected.isNaN ≠ actual.isNaN) : ¬ Agrees tolerance (.real expected) (.real actual) := by
  rintro (⟨hExpected, hActual⟩ | ⟨_, hEqual⟩ | hBound)
  · exact h (hExpected.trans hActual.symm)
  · obtain ⟨hExpected, hActual, _⟩ := beq_iff_rank.mp hEqual
    exact h (hExpected.trans hActual.symm)
  · have hDifference := (le_iff_rank.mp hBound).1
    rw [abs_isNaN, Bool.eq_false_iff, ne_eq, sub_isNaN_iff, not_or, not_or] at hDifference
    obtain ⟨⟨hExpected, hActual⟩, _⟩ := hDifference
    exact h ((Bool.eq_false_iff.mpr hExpected).trans (Bool.eq_false_iff.mpr hActual).symm)

/-- The error of two numbers is NaN or within a tolerance if the numbers agree. -/
theorem realError_le_iff {tolerance : Float} (hTolerance : isTolerance tolerance = true)
    (expected actual : Float) :
    (realError expected actual).isNaN = true ∨ realError expected actual ≤ tolerance ↔
      Value.Agrees tolerance (.real expected) (.real actual) := by
  obtain ⟨hZero, hInfinity⟩ := bounds_of_isTolerance hTolerance
  have hNumber : ¬ infinity.isNaN = true := by decide +kernel
  unfold realError
  cases hExpected : expected.isNaN <;> cases hActual : actual.isNaN
  case false.false =>
    simp only [Value.Agrees, abs_isNaN, sub_isNaN_iff, hExpected, hActual, Bool.false_eq_true,
      false_or, false_and]
  case true.true => exact iff_of_true (.inr hZero) (.inl ⟨hExpected, hActual⟩)
  -- A number and a NaN are infinitely far from each other.
  all_goals
    refine iff_of_false (not_or_intro hNumber hInfinity) (Value.not_agrees_of_isNaN_ne ?_)
    rw [hExpected, hActual]
    decide

namespace Deviation

/-! ## Adding pairs of values -/

/-- The deviation with one more pair of values of one type. -/
def add (deviation : Deviation) (values : Value × Value) : Deviation :=
  match values with
  | (.real expected, .real actual) =>
      { deviation with
        maxAbsError := larger deviation.maxAbsError (realError expected actual) }
  | (.boolean expected, .boolean actual) =>
      if expected = actual then deviation
      else { deviation with mismatches := deviation.mismatches + 1 }
  | _ => deviation

/-- The deviation with more pairs of values. -/
def extend (deviation : Deviation) (pairs : List (Value × Value)) : Deviation :=
  pairs.foldl add deviation

variable {deviation result : Deviation} {values : Value × Value} {pairs : List (Value × Value)}

@[simp] theorem name_add : (deviation.add values).name = deviation.name := by
  rcases values with ⟨_ | _, _ | _⟩ <;> simp only [add]
  split <;> rfl

@[simp] theorem name_extend : (deviation.extend pairs).name = deviation.name := by
  induction pairs generalizing deviation with
  | nil => rfl
  | cons values later ih => exact ih.trans name_add

theorem extend_append (more : List (Value × Value)) :
    deviation.extend (pairs ++ more) = (deviation.extend pairs).extend more :=
  List.foldl_append

/-- Nothing has strayed at the start, and zero is within every tolerance. -/
theorem isWithin_none {tolerance : Float} (hTolerance : isTolerance tolerance = true)
    (name : String) : (none name).isWithin tolerance = true := by
  simp [none, isWithin, (bounds_of_isTolerance hTolerance).1]

theorem isNaN_none (name : String) : (none name).maxAbsError.isNaN = false := by
  simp only [none]
  decide +kernel

/-- Values of one type are compared, values of different types are refused. -/
theorem compareValue_eq_ok_iff :
    deviation.compareValue values = .ok result ↔
      values.1.type = values.2.type ∧ result = deviation.add values := by
  rcases values with ⟨_ | _, _ | _⟩ <;> simp [compareValue, add, Value.type, eq_comm]

theorem foldlM_compareValue_eq_ok_iff :
    pairs.foldlM compareValue deviation = .ok result ↔
      (∀ values ∈ pairs, values.1.type = values.2.type) ∧ result = deviation.extend pairs := by
  induction pairs generalizing deviation with
  | nil => simp [extend, @eq_comm _ result]
  | cons values later ih =>
      simp only [List.foldlM_cons, except_bind_eq_ok_iff, compareValue_eq_ok_iff, ih,
        List.forall_mem_cons]
      constructor
      · rintro ⟨_, ⟨hFirst, rfl⟩, hLater, rfl⟩
        exact ⟨⟨hFirst, hLater⟩, rfl⟩
      · rintro ⟨⟨hFirst, hLater⟩, rfl⟩
        exact ⟨_, ⟨hFirst, rfl⟩, hLater, rfl⟩

theorem isNaN_add (hNumber : deviation.maxAbsError.isNaN = false) :
    (deviation.add values).maxAbsError.isNaN = false := by
  rcases values with ⟨expected | expected, actual | actual⟩
  · exact isNaN_larger hNumber
  · exact hNumber
  · exact hNumber
  · by_cases hSame : expected = actual
    · simpa only [add, if_pos hSame] using hNumber
    · simpa only [add, if_neg hSame] using hNumber

/-- One step: a deviation stays within a tolerance if the values agree. -/
theorem isWithin_add_iff {tolerance : Float} (hTolerance : isTolerance tolerance = true)
    (hNumber : deviation.maxAbsError.isNaN = false) (hTypes : values.1.type = values.2.type) :
    (deviation.add values).isWithin tolerance = true ↔
      deviation.isWithin tolerance = true ∧ values.1.Agrees tolerance values.2 := by
  rcases values with ⟨expected | expected, actual | actual⟩
  · rw [← realError_le_iff hTolerance]
    simp only [add, isWithin, Bool.and_eq_true, decide_eq_true_iff, larger_le_iff hNumber]
    tauto
  · cases hTypes
  · cases hTypes
  · by_cases hSame : expected = actual
    · simp [add, hSame, Value.Agrees]
    · simp [add, hSame, Value.Agrees, isWithin]

/-- A deviation that was within a tolerance stays so exactly if all values agree. -/
theorem isWithin_extend_iff {tolerance : Float} (hTolerance : isTolerance tolerance = true)
    (hNumber : deviation.maxAbsError.isNaN = false)
    (hTypes : ∀ values ∈ pairs, values.1.type = values.2.type) :
    (deviation.extend pairs).isWithin tolerance = true ↔
      deviation.isWithin tolerance = true ∧
        ∀ values ∈ pairs, values.1.Agrees tolerance values.2 := by
  induction pairs generalizing deviation with
  | nil => simp [extend]
  | cons values later ih =>
      obtain ⟨hFirst, hLater⟩ := List.forall_mem_cons.mp hTypes
      show ((deviation.add values).extend later).isWithin tolerance = true ↔ _
      rw [ih (isNaN_add hNumber) hLater, isWithin_add_iff hTolerance hNumber hFirst,
        List.forall_mem_cons, and_assoc]

theorem mismatches_add :
    (deviation.add values).mismatches =
      deviation.mismatches + if Value.differ values then 1 else 0 := by
  rcases values with ⟨expected | expected, actual | actual⟩ <;> simp only [add, Value.differ]
  · rfl
  · rfl
  · rfl
  · by_cases hSame : expected = actual <;> simp [hSame]

/-- The truth values that differ are counted. -/
theorem mismatches_extend :
    (deviation.extend pairs).mismatches =
      deviation.mismatches + pairs.countP Value.differ := by
  induction pairs generalizing deviation with
  | nil => rfl
  | cons values later ih =>
      show ((deviation.add values).extend later).mismatches = _
      rw [ih, mismatches_add, List.countP_cons]
      omega

end Deviation

/-! ## Outputs and rows -/

theorem map_type_eq_iff {expected actual : List Value} :
    actual.map Value.type = expected.map Value.type ↔ expected.length = actual.length ∧
      ∀ values ∈ expected.zip actual, values.1.type = values.2.type := by
  rw [eq_comm, ← List.forall₂_eq_eq_eq, List.forall₂_map_left_iff, List.forall₂_map_right_iff,
    List.forall₂_iff_zip]
  simp only [Prod.forall]

namespace Graph

/-- The values of a named output in two graphs, side by side; there are none unless both
graphs compute it. -/
def compared (reference candidate : Graph) (name : String) (row : List Float) :
    List (Value × Value) :=
  match reference.computeOutput row name, candidate.computeOutput row name with
  | .ok expected, .ok actual => expected.zip actual
  | _, _ => []

/-- Both graphs compute a named output, with as many values of the same types. -/
def ComputesAlike (reference candidate : Graph) (row : List Float) (name : String) : Prop :=
  ∃ expected actual, reference.computeOutput row name = .ok expected ∧
    candidate.computeOutput row name = .ok actual ∧
    actual.map Value.type = expected.map Value.type

theorem compared_of_computeOutput {reference candidate : Graph} {row : List Float} {name : String}
    {expected actual : List Value} (hExpected : reference.computeOutput row name = .ok expected)
    (hActual : candidate.computeOutput row name = .ok actual) :
    compared reference candidate name row = expected.zip actual := by
  unfold compared
  rw [hExpected, hActual]

theorem ComputesAlike.type_eq {reference candidate : Graph} {row : List Float} {name : String}
    (h : ComputesAlike reference candidate row name) {values : Value × Value}
    (hValues : values ∈ compared reference candidate name row) :
    values.1.type = values.2.type := by
  obtain ⟨expected, actual, hExpected, hActual, hTypes⟩ := h
  rw [compared_of_computeOutput hExpected hActual] at hValues
  exact (map_type_eq_iff.mp hTypes).2 values hValues

/-- Both graphs are evaluated on a row, and compute the outputs of some names alike. -/
structure Matches (reference candidate : Graph) (names : List String) (row : List Float) :
    Prop where
  expected : ∃ known, reference.evaluate row = .ok known
  actual : ∃ known, candidate.evaluate row = .ok known
  alike : ∀ name ∈ names, ComputesAlike reference candidate row name

end Graph

namespace Deviation

open ForestGraph.Graph

variable {reference candidate : Graph} {row : List Float} {deviation result : Deviation}

theorem readOutput_eq_ok_iff {graph : Graph} {known : Evaluation}
    (hKnown : graph.evaluate row = .ok known) {name : String} {values : List Value} :
    readOutput graph known name = .ok values ↔ graph.computeOutput row name = .ok values := by
  unfold readOutput computeOutput
  cases graph.output? name with
  | none => simp
  | some selection =>
      show known.read selection = .ok values ↔
        (graph.evaluate row >>= fun known => known.read selection) = .ok values
      rw [hKnown]
      rfl

/-- The lists of values are compared if they have the same types. -/
theorem compareAll_eq_ok_iff {expected actual : List Value} {mismatch : Error} :
    (if expected.length ≠ actual.length then (do
        throw mismatch
        (expected.zip actual).foldlM compareValue deviation)
      else (expected.zip actual).foldlM compareValue deviation) = .ok result ↔
      actual.map Value.type = expected.map Value.type ∧
        result = deviation.extend (expected.zip actual) := by
  rw [map_type_eq_iff]
  by_cases hLength : expected.length = actual.length
  · rw [if_neg (not_not_intro hLength), foldlM_compareValue_eq_ok_iff]
    simp only [hLength, true_and]
  · rw [if_pos hLength, except_bind_eq_ok_iff]
    simp [hLength]

theorem compareOutput_eq_ok_iff {expected actual : Evaluation}
    (hExpected : reference.evaluate row = .ok expected)
    (hActual : candidate.evaluate row = .ok actual) :
    compareOutput reference candidate expected actual deviation = .ok result ↔
      ComputesAlike reference candidate row deviation.name ∧
        result = deviation.extend (compared reference candidate deviation.name row) := by
  unfold compareOutput ComputesAlike
  simp only [except_bind_eq_ok_iff, readOutput_eq_ok_iff hExpected, readOutput_eq_ok_iff hActual]
  constructor
  · rintro ⟨left, hLeft, right, hRight, hCompared⟩
    obtain ⟨hTypes, hResult⟩ := compareAll_eq_ok_iff.mp hCompared
    rw [compared_of_computeOutput hLeft hRight]
    exact ⟨⟨left, right, hLeft, hRight, hTypes⟩, hResult⟩
  · rintro ⟨⟨left, right, hLeft, hRight, hTypes⟩, hResult⟩
    rw [compared_of_computeOutput hLeft hRight] at hResult
    exact ⟨left, hLeft, right, hRight, compareAll_eq_ok_iff.mpr ⟨hTypes, hResult⟩⟩

/-- A row is compared if the graphs match on it. -/
theorem compareRow_eq_ok_iff {deviations results : List Deviation} :
    compareRow reference candidate deviations row = .ok results ↔
      Matches reference candidate (deviations.map name) row ∧
      results = deviations.map fun deviation =>
        deviation.extend (compared reference candidate deviation.name row) := by
  unfold compareRow
  simp only [except_bind_eq_ok_iff]
  constructor
  · rintro ⟨expected, hExpected, actual, hActual, hOutputs⟩
    rw [mapM_eq_ok_iff_map fun _ _ => compareOutput_eq_ok_iff hExpected hActual] at hOutputs
    exact ⟨⟨⟨expected, hExpected⟩, ⟨actual, hActual⟩, List.forall_mem_map.mpr hOutputs.1⟩,
      hOutputs.2⟩
  · rintro ⟨⟨⟨expected, hExpected⟩, ⟨actual, hActual⟩, hAlike⟩, hResults⟩
    refine ⟨expected, hExpected, actual, hActual, ?_⟩
    rw [mapM_eq_ok_iff_map fun _ _ => compareOutput_eq_ok_iff hExpected hActual]
    exact ⟨List.forall_mem_map.mp hAlike, hResults⟩

/-- The run over all rows extends every deviation by the pairs of its name. -/
theorem foldlM_compareRow_eq_ok_iff {rows : List (List Float)}
    {deviations results : List Deviation} :
    rows.foldlM (compareRow reference candidate) deviations = .ok results ↔
      (∀ row ∈ rows, Matches reference candidate (deviations.map name) row) ∧
      results = deviations.map fun deviation =>
        deviation.extend (rows.flatMap (compared reference candidate deviation.name)) := by
  induction rows generalizing deviations with
  | nil => simp [extend, @eq_comm _ results]
  | cons row later ih =>
      -- The names stay what they are, so the later rows are matched and paired by the same ones.
      have hNames : (deviations.map fun deviation =>
          deviation.extend (compared reference candidate deviation.name row)).map name =
          deviations.map name := by
        simp
      simp only [List.foldlM_cons, except_bind_eq_ok_iff, compareRow_eq_ok_iff, ih,
        List.forall_mem_cons, List.flatMap_cons, extend_append]
      constructor
      · rintro ⟨_, ⟨hRow, rfl⟩, hLater, hResults⟩
        rw [hNames] at hLater
        exact ⟨⟨hRow, hLater⟩, by simpa [Function.comp_def] using hResults⟩
      · rintro ⟨⟨hRow, hLater⟩, rfl⟩
        refine ⟨_, ⟨hRow, rfl⟩, ?_, by simp [Function.comp_def]⟩
        rw [hNames]
        exact hLater

end Deviation

/-! ## Reports -/

namespace Graph

variable {reference candidate : Graph} {rows : List (List Float)} {settings : Settings}
  {report : EquivalenceReport}

/-- The report on all pairs of values that two graphs compute. -/
def reported (reference candidate : Graph) (rows : List (List Float)) (tolerance : Float) :
    EquivalenceReport where
  inputsChecked := rows.length
  tolerance := tolerance
  deviations := reference.outputs.map fun output =>
    (Deviation.none output.1).extend (rows.flatMap (compared reference candidate output.1))

/-- Two graphs are compared exactly if they match on all rows. -/
theorem compare_eq_ok_iff :
    reference.compare candidate rows settings = .ok report ↔
      (∀ row ∈ rows, Matches reference candidate (reference.outputs.map Prod.fst) row) ∧
      report = reported reference candidate rows settings.equivalenceTolerance := by
  unfold Graph.compare
  simp only [except_bind_eq_ok_iff, Deviation.foldlM_compareRow_eq_ok_iff, except_pure_eq_ok_iff,
    List.map_map]
  constructor
  · rintro ⟨_, ⟨hRows, rfl⟩, rfl⟩
    exact ⟨hRows, rfl⟩
  · rintro ⟨hRows, rfl⟩
    exact ⟨_, ⟨hRows, rfl⟩, rfl⟩

/-- Both graphs are evaluated on a row, and every named output of the first exists in the
second, with as many values of the same types. -/
structure Comparable (reference candidate : Graph) (row : List Float) : Prop where
  expected : ∃ known, reference.evaluate row = .ok known
  actual : ∃ known, candidate.evaluate row = .ok known
  named : ∀ output ∈ reference.outputs, ∃ selection, candidate.output? output.1 = some selection
  alike : ∀ output ∈ reference.outputs, ∀ expected actual,
    reference.computeOutput row output.1 = .ok expected →
    candidate.computeOutput row output.1 = .ok actual →
    actual.map Value.type = expected.map Value.type

/-- What a report on two graphs says about their values on a number of rows. -/
structure Reports (reference candidate : Graph) (rows : List (List Float))
    (report : EquivalenceReport) : Prop where
  inputsChecked : report.inputsChecked = rows.length
  names : report.deviations.map Deviation.name = reference.outputs.map Prod.fst
  /-- All values of the outputs are compared. -/
  computed : ∀ row ∈ rows, ∀ output ∈ reference.outputs, ∃ expected actual,
    reference.computeOutput row output.1 = .ok expected ∧
    candidate.computeOutput row output.1 = .ok actual ∧ expected.length = actual.length ∧
    compared reference candidate output.1 row = expected.zip actual
  /-- The graphs are equivalent if all of them agree. -/
  isEquivalent_iff : report.isEquivalent = true ↔ ∀ row ∈ rows, ∀ output ∈ reference.outputs,
    ∀ values ∈ compared reference candidate output.1 row,
      values.1.Agrees report.tolerance values.2
  /-- The truth values that differ are counted, those of all rows. -/
  mismatches : ∀ deviation ∈ report.deviations, deviation.mismatches =
    (rows.flatMap (compared reference candidate deviation.name)).countP Value.differ

/-- The deviation of a name is within a tolerance if all pairs of values agree. -/
theorem isWithin_extend_compared_iff {tolerance : Float}
    (hTolerance : isTolerance tolerance = true) {name : String}
    (hAlike : ∀ row ∈ rows, ComputesAlike reference candidate row name) :
    ((Deviation.none name).extend
        (rows.flatMap (compared reference candidate name))).isWithin tolerance = true ↔
      ∀ row ∈ rows, ∀ values ∈ compared reference candidate name row,
        values.1.Agrees tolerance values.2 := by
  have hTypes : ∀ values ∈ rows.flatMap (compared reference candidate name),
      values.1.type = values.2.type := by
    intro values hValues
    obtain ⟨row, hRow, hMem⟩ := List.mem_flatMap.mp hValues
    exact (hAlike row hRow).type_eq hMem
  rw [Deviation.isWithin_extend_iff hTolerance (Deviation.isNaN_none _) hTypes,
    and_iff_right (Deviation.isWithin_none hTolerance _)]
  simp only [List.mem_flatMap]
  exact ⟨fun h row hRow values hValues => h values ⟨row, hRow, hValues⟩,
    fun h values ⟨row, hRow, hValues⟩ => h row hRow values hValues⟩

theorem reports_reported {tolerance : Float} (hTolerance : isTolerance tolerance = true)
    (hRows : ∀ row ∈ rows, Matches reference candidate (reference.outputs.map Prod.fst) row) :
    Reports reference candidate rows (reported reference candidate rows tolerance) := by
  have hAlike : ∀ output ∈ reference.outputs, ∀ row ∈ rows,
      ComputesAlike reference candidate row output.1 :=
    fun output hOutput row hRow => (hRows row hRow).alike _ (List.mem_map_of_mem hOutput)
  refine ⟨rfl, ?_, fun row hRow output hOutput => ?_, ?_, ?_⟩
  · simp [reported, Deviation.none]
  · obtain ⟨expected, actual, hExpected, hActual, hTypes⟩ := hAlike output hOutput row hRow
    exact ⟨expected, actual, hExpected, hActual, (map_type_eq_iff.mp hTypes).1,
      compared_of_computeOutput hExpected hActual⟩
  · have hWithin := fun output hOutput =>
      isWithin_extend_compared_iff hTolerance (hAlike output hOutput)
    simp only [EquivalenceReport.isEquivalent, reported, List.all_map, List.all_eq_true,
      Function.comp_apply]
    constructor
    · exact fun h row hRow output hOutput =>
        (hWithin output hOutput).mp (h output hOutput) row hRow
    · exact fun h output hOutput =>
        (hWithin output hOutput).mpr fun row hRow => h row hRow output hOutput
  · intro deviation hDeviation
    obtain ⟨output, _, rfl⟩ := List.mem_map.mp hDeviation
    rw [Deviation.mismatches_extend, Deviation.name_extend]
    exact Nat.zero_add _

/-- Named outputs that exist are computed, so that only their types are in question. -/
theorem matches_iff_comparable (hReference : reference.Named) (hCandidate : candidate.Named)
    {row : List Float} :
    Matches reference candidate (reference.outputs.map Prod.fst) row ↔
      Comparable reference candidate row := by
  constructor
  · rintro ⟨hEvaluated, hOther, hAlike⟩
    have hOutputs := List.forall_mem_map.mp hAlike
    refine ⟨hEvaluated, hOther, fun output hOutput => ?_,
      fun output hOutput expected actual hExpected hActual => ?_⟩
    · obtain ⟨_, _, _, hActual, _⟩ := hOutputs output hOutput
      obtain ⟨selection, hName, _⟩ := computeOutput_eq_ok_iff.mp hActual
      exact ⟨selection, hName⟩
    · obtain ⟨_, _, hFirst, hSecond, hTypes⟩ := hOutputs output hOutput
      rw [hExpected] at hFirst
      rw [hActual] at hSecond
      cases hFirst
      cases hSecond
      exact hTypes
  · rintro ⟨⟨known, hKnown⟩, ⟨other, hOther⟩, hNamed, hTypes⟩
    refine ⟨⟨known, hKnown⟩, ⟨other, hOther⟩, List.forall_mem_map.mpr fun output hOutput => ?_⟩
    obtain ⟨expected, hExpected⟩ :=
      hReference.exists_computeOutput hKnown (hReference.ordered.find?_of_mem hOutput)
    obtain ⟨selection, hName⟩ := hNamed output hOutput
    obtain ⟨actual, hActual⟩ := hCandidate.exists_computeOutput hOther hName
    exact ⟨expected, actual, hExpected, hActual, hTypes output hOutput _ _ hExpected hActual⟩

/-- Under valid settings, two graphs of any nodes are compared exactly if every row is
evaluated by both and every output has a counterpart of its types.  The report then counts
the truth values that differ, and calls the graphs equivalent exactly if all values agree. -/
theorem compare_decides (calls others : List Call) (rows : List (List Float))
    (settings : Settings) (hSettings : settings.validate = .ok ()) :
    ((∃ report, (assemble calls).compare (assemble others) rows settings = .ok report) ↔
      ∀ row ∈ rows, Comparable (assemble calls) (assemble others) row) ∧
    ∀ report, (assemble calls).compare (assemble others) rows settings = .ok report →
      report.tolerance = settings.equivalenceTolerance ∧
        Reports (assemble calls) (assemble others) rows report := by
  have hMatches : ∀ row, Matches (assemble calls) (assemble others)
      ((assemble calls).outputs.map Prod.fst) row ↔
      Comparable (assemble calls) (assemble others) row :=
    fun row => matches_iff_comparable (named_assemble calls) (named_assemble others)
  refine ⟨?_, fun report hReport => ?_⟩
  · simp only [compare_eq_ok_iff, exists_and_left, exists_eq, and_true, hMatches]
  · obtain ⟨hRows, rfl⟩ := compare_eq_ok_iff.mp hReport
    exact ⟨rfl, reports_reported (Settings.isTolerance_of_validate hSettings) hRows⟩

/-- The calls that make a graph of an infinity, a NaN and a number, and of some flags. -/
def constantCalls (flags : List Bool) : List Call :=
  [.add (.constant (.reals [infinity, notANumber, 1.5])),
    .add (.constant (.booleans flags)),
    .addOutput "numbers" (Selection.ofOutput ⟨0, 0⟩ 3),
    .addOutput "flags" (Selection.ofOutput ⟨1, 0⟩ flags.length)]

/-- One of the flags differs on each of two rows. -/
theorem compare_decides_constants :
    Settings.default.validate = .ok () ∧
    ∃ report, (assemble (constantCalls [true, false])).compare
        (assemble (constantCalls [true, true])) [[], [2]] Settings.default = .ok report ∧
      Reports (assemble (constantCalls [true, false])) (assemble (constantCalls [true, true]))
        [[], [2]] report ∧
      report.deviations.map Deviation.mismatches = [2, 0] := by
  have hSettings := Settings.validate_default
  obtain ⟨_, hReports⟩ := compare_decides (constantCalls [true, false])
    (constantCalls [true, true]) [[], [2]] Settings.default hSettings
  exact ⟨hSettings, _, rfl, (hReports _ rfl).2, rfl⟩

end Graph

end ForestGraph
