import ForestGraph.Proofs.Deviations
import ForestGraph.Proofs.ForestGraphs

/-!
# No false alarms

A graph compared with what its expansion makes of it has not strayed at all.  The two
graphs compute the same values, bit by bit, and a value does not differ from itself: the
difference is zero, or a NaN, which the largest error passes over.
-/

namespace ForestGraph

open Rebuild

/-! ## A value and itself -/

/-- A number is no distance from itself; for an infinity the difference is a NaN. -/
theorem realError_self (number : Float) :
    realError number number = 0 ∨ (realError number number).isNaN = true := by
  unfold realError
  cases hNumber : number.isNaN
  · cases hFinite : number.isFinite
    · have hInfinite := isInf_of_not_isFinite hNumber hFinite
      have hEqual : (number == number) = true := beq_iff_rank.mpr ⟨hNumber, hNumber, rfl⟩
      exact .inr ((abs_isNaN _).trans (sub_isNaN_iff.mpr (.inr ⟨hInfinite, hEqual⟩)))
    · exact .inl (abs_sub_self hFinite)
  · exact .inl rfl

theorem larger_zero_realError_self (number : Float) : larger 0 (realError number number) = 0 := by
  have hZero : (0 : Float).isNaN = false := by decide +kernel
  rcases realError_self number with hError | hError
  · rw [hError]
    decide +kernel
  · unfold larger
    rw [if_neg (Bool.eq_false_iff.mp hZero), if_pos hError]

namespace Deviation

variable {deviation : Deviation} {values : Value × Value} {pairs : List (Value × Value)}

/-- One step: a pair of the same value leaves a deviation without error as it is. -/
theorem add_of_same (hZero : deviation.maxAbsError = 0) (hSame : values.1 = values.2) :
    deviation.add values = deviation := by
  obtain ⟨value, _⟩ := values
  cases hSame
  cases value with
  | real number =>
      show { deviation with maxAbsError := larger deviation.maxAbsError _ } = deviation
      rw [hZero, larger_zero_realError_self, ← hZero]
  | boolean truth => simp only [add, if_true]

theorem extend_of_same (hZero : deviation.maxAbsError = 0)
    (hSame : ∀ values ∈ pairs, values.1 = values.2) : deviation.extend pairs = deviation := by
  induction pairs with
  | nil => rfl
  | cons values later ih =>
      obtain ⟨hFirst, hLater⟩ := List.forall_mem_cons.mp hSame
      show (deviation.add values).extend later = deviation
      rw [add_of_same hZero hFirst]
      exact ih hLater

end Deviation

/-! ## Graphs that agree -/

namespace Graph

variable {graph other : Graph} {rows : List (List Float)} {settings : Settings}

theorem AgreesOn.matches {row : List Float} (h : graph.AgreesOn other row)
    (hRow : ∃ known, graph.evaluate row = .ok known) :
    Matches graph other (graph.outputs.map Prod.fst) row := by
  refine ⟨hRow, h.evaluates.mp hRow, List.forall_mem_map.mpr fun output hOutput => ?_⟩
  obtain ⟨known, hKnown⟩ := hRow
  obtain ⟨values, hValues, hSame⟩ := h.values known hKnown output hOutput
  exact ⟨values, values, hValues, hSame, rfl⟩

theorem AgreesOn.eq_of_mem_compared {row : List Float} (h : graph.AgreesOn other row)
    (hRow : ∃ known, graph.evaluate row = .ok known) {output : String × Selection}
    (hOutput : output ∈ graph.outputs) {values : Value × Value}
    (hValues : values ∈ compared graph other output.1 row) : values.1 = values.2 := by
  obtain ⟨known, hKnown⟩ := hRow
  obtain ⟨all, hAll, hSame⟩ := h.values known hKnown output hOutput
  rw [compared_of_computeOutput hAll hSame] at hValues
  have hSelf : List.Forall₂ Eq all all := List.forall₂_same.mpr fun _ _ => rfl
  exact (List.forall₂_iff_zip.mp hSelf).2 hValues

/-- The report on graphs that agree holds one deviation for each name, and no error. -/
theorem compare_of_agreesOn (hRows : ∀ row ∈ rows, ∃ known, graph.evaluate row = .ok known)
    (hAgrees : ∀ row ∈ rows, graph.AgreesOn other row) :
    graph.compare other rows settings = .ok ⟨rows.length, settings.equivalenceTolerance,
      graph.outputs.map fun output => Deviation.none output.1⟩ := by
  refine compare_eq_ok_iff.mpr ⟨fun row hRow => (hAgrees row hRow).matches (hRows row hRow), ?_⟩
  unfold reported
  congr 1
  refine List.map_congr_left fun output hOutput => (Deviation.extend_of_same rfl ?_).symm
  intro values hValues
  obtain ⟨row, hRow, hMem⟩ := List.mem_flatMap.mp hValues
  exact (hAgrees row hRow).eq_of_mem_compared (hRows row hRow) hOutput hMem

theorem validate_of_expand {lowered : Graph} (h : graph.expand settings = .ok lowered) :
    settings.validate = .ok () := by
  obtain ⟨_, hSettings, _⟩ := except_bind_eq_ok_iff.mp h
  exact hSettings

/-- Graphs whose forests are checked agree with what they are expanded to. -/
theorem Built.agreesOn_of_expand (hGraph : graph.Built) (hChecks : settings.validateForest = true)
    {lowered : Graph} (hExpand : graph.expand settings = .ok lowered) (row : List Float) :
    graph.AgreesOn lowered row := by
  obtain ⟨after, hSucceeds⟩ := (expand_eq_ok_iff (validate_of_expand hExpand)).mp hExpand
  have hValid := (hGraph.of_expand hSucceeds).1 hChecks
  exact (hGraph.sound.of_expand hSucceeds).agreesOn hGraph.sound
    fun known _ => hValid.entersLast known

/-- A graph that valid settings with checked forests expand is equivalent to the result,
under every valid tolerance and on all rows that it can be evaluated on: no truth value
differs and no error is above zero. -/
theorem Built.compare_expand {lowered : Graph} (hGraph : graph.Built)
    (hChecks : settings.validateForest = true) (hExpand : graph.expand settings = .ok lowered)
    (hRows : ∀ row ∈ rows, ∃ known, graph.evaluate row = .ok known) {others : Settings}
    (hOthers : others.validate = .ok ()) :
    ∃ report, graph.compare lowered rows others = .ok report ∧
      report.inputsChecked = rows.length ∧
      report.deviations.map Deviation.name = graph.outputs.map Prod.fst ∧
      (∀ deviation ∈ report.deviations,
        deviation.maxAbsError = 0 ∧ deviation.mismatches = 0) ∧
      report.isEquivalent = true := by
  have hAgrees := fun row => hGraph.agreesOn_of_expand hChecks hExpand row
  refine ⟨_, compare_of_agreesOn hRows fun row _ => hAgrees row, rfl, ?_, ?_, ?_⟩
  · simp [Deviation.none]
  · intro deviation hDeviation
    obtain ⟨output, _, rfl⟩ := List.mem_map.mp hDeviation
    exact ⟨rfl, rfl⟩
  · simp only [EquivalenceReport.isEquivalent, List.all_map, List.all_eq_true, Function.comp_apply]
    exact fun output _ => Deviation.isWithin_none (Settings.isTolerance_of_validate hOthers) _

/-- Settings that tolerate no error at all. -/
def strictSettings : Settings :=
  { Settings.default with equivalenceTolerance := 0 }

/-- Two forests in a row, on numbers and on an infinity and a NaN. -/
theorem Built.compare_expand_stackedForests :
    stackedForests.Built ∧ Settings.default.validateForest = true ∧
    strictSettings.validate = .ok () ∧
    ∃ lowered, stackedForests.expand Settings.default = .ok lowered ∧
      (∀ row ∈ [[0.75, 2], [infinity, notANumber]],
        ∃ known, stackedForests.evaluate row = .ok known) ∧
      ∃ report, stackedForests.compare lowered [[0.75, 2], [infinity, notANumber]]
          strictSettings = .ok report ∧
        (∀ deviation ∈ report.deviations, deviation.maxAbsError = 0) ∧
        report.isEquivalent = true := by
  have hStrict : strictSettings.validate = .ok () := rfl
  obtain ⟨lowered, after, hSucceeds⟩ := @Graph.Sound.exists_expand stackedForests
    (start Settings.default.rebuildOptions) built_stackedForests.sound
    (validForests_stackedForests.acceptable coveredForests_stackedForests _)
  have hExpand := (expand_eq_ok_iff Settings.validate_default).mpr ⟨after, hSucceeds⟩
  have hRows : ∀ row ∈ [[0.75, 2], [infinity, notANumber]],
      ∃ known, stackedForests.evaluate row = .ok known := by
    intro row hRow
    refine (built_stackedForests.sound.typed.evaluates_iff
      validForests_stackedForests.expandable coveredForests_stackedForests).mpr (fun size hInput => ?_) |>.2
    have hSize : size = 2 := by simpa [stackedForests] using hInput
    rw [hSize]
    rcases List.mem_pair.mp hRow with rfl | rfl <;> rfl
  obtain ⟨report, hReport, _, _, hErrors, hEquivalent⟩ :=
    built_stackedForests.compare_expand rfl hExpand hRows hStrict
  exact ⟨built_stackedForests, rfl, hStrict, lowered, hExpand, hRows, report, hReport,
    fun deviation hDeviation => (hErrors deviation hDeviation).1, hEquivalent⟩

end Graph

end ForestGraph
