import ForestGraph.Proofs.GatedEvaluations
import ForestGraph.Proofs.Refusals

/-!
# Exact acceptance without checks

Which forests an expansion without checks accepts, how it refuses those with an edge
that does not descend, and what the expanded graph computes for the accepted ones: the
output and the tree outputs of the evaluation, on the features that are computed with
gated edges.  These are the features of the graph itself unless they depend on the edge
indicator of another forest, which may have marked a shared child differently.
-/

namespace ForestGraph

open Rebuild

/-- A graph and its expansion at one forest, for a vector that both are evaluated on. -/
structure ForestComputes (graph result : Graph) (index : Nat) (input : Selection)
    (ensemble : Forest) (vector : List Float) (known seen : Evaluation)
    (original numbers : List Float) (outcome : Outcome) : Prop where
  evaluated : graph.evaluate vector = .ok known
  /-- The forest is evaluated on the features that it reads in the graph. -/
  features : known.readReals input = .ok original
  direct : ∃ direct, ensemble.evaluate original = .ok direct
  /-- The expanded graph computes what the graph does if forests mark gated edges. -/
  gated : GatedRun vector .empty graph.nodes.toList seen
  shown : ∀ name selection, graph.output? name = some selection →
    ∃ values, seen.read selection = .ok values ∧ result.computeOutput vector name = .ok values
  /-- The forest is evaluated on the features that it reads there, and its output and tree
  outputs are those of the expanded graph. -/
  gatedFeatures : seen.readReals input = .ok numbers
  gatedOutcome : ensemble.evaluate numbers = .ok outcome
  output : ∀ name, graph.output? name =
      some (Selection.ofOutput ⟨index, ForestPort.output.index⟩ 1) →
    result.computeOutput vector name = .ok [.real outcome.output]
  treeOutputs : ∀ name, graph.output? name =
      some (Selection.ofOutput ⟨index, ForestPort.treeOutputs.index⟩ ensemble.treeCount) →
    result.computeOutput vector name = .ok (outcome.treeOutputs.map .real)
  /-- Faithful features are the same in both. -/
  same : (∀ element ∈ input, Faithful graph.nodes.toList known element.output) →
    numbers = original

/-- What an expansion without checks does with a forest, once it has rebuilt the nodes
before it. -/
structure UncheckedExpansion (graph : Graph) (first : List Node) (input : Selection)
    (ensemble : Forest) (middle : Rebuild) : Prop where
  accepted : (∃ changed after, Succeeds (expandNode first.length (.forest input ensemble))
    middle changed after) ↔ ensemble.Expandable
  /-- An edge that does not lead to a later node is always reported as a broken invariant. -/
  refused : ¬ ensemble.Descends → ∃ error after, error.category = .invariantViolation ∧
    Fails (expandNode first.length (.forest input ensemble)) middle error after ∧
    ∀ before, before.options = middle.options → Fails (Rebuild.expand graph) before error after
  computes : ∀ before result after, before.options = middle.options →
    Succeeds (Rebuild.expand graph) before result after → ∀ vector,
    (∀ size, Node.input size ∈ graph.nodes.toList → vector.length = size) →
    ∃ known seen original numbers outcome,
      ForestComputes graph result first.length input ensemble vector known seen original
        numbers outcome

section Forest

variable {options : RebuildOptions} {old new : Graph} {first later : List Node}
  {input : Selection} {ensemble : Forest} {vector : List Float} {known seen : Evaluation}

/-- In a gated run, a forest has read its features and has the values of its outcome. -/
theorem GatedRun.exists_outcome
    (hRun : GatedRun vector .empty (first ++ .forest input ensemble :: later) seen)
    (hTyped : TypedSequence first) :
    ∃ numbers outcome, seen.readReals input = .ok numbers ∧
      ensemble.evaluate numbers = .ok outcome ∧
      seen.read (Selection.ofOutput ⟨first.length, 0⟩ 1) = .ok [.real outcome.output] ∧
      seen.read (Selection.ofOutput ⟨first.length, 1⟩ ensemble.treeCount) =
        .ok (outcome.treeOutputs.map .real) := by
  obtain ⟨middle, hFirst, hRest⟩ := hRun.split
  have hLength : middle.values.toList.length = first.length :=
    (@GatedRun.fits _ _ _ [] _ hFirst hTyped fits_empty).length_eq
  cases hRest with
  | cons hPorts hLater =>
      cases hPorts with
      | elementary hElementary => cases hElementary
      | @forest _ _ numbers outcome flags hNumbers hOutcome hFlags =>
          have hPrefix := hLater.isPrefix
          rw [Evaluation.toList_push] at hPrefix
          have hMiddle := (List.prefix_append _ _).trans hPrefix
          -- The ports of the forest stand behind those of the nodes before it.
          have hAt : seen.values.toList[first.length]? =
              some ({ outcome with edgeIndicator := flags } : Outcome).ports := by
            obtain ⟨rest, hRest⟩ := hPrefix
            rw [← hRest, List.append_assoc, List.getElem?_append_right (by omega), hLength]
            simp
          have hTrees := (Forest.length_of_evaluate hOutcome).1
          refine ⟨numbers, outcome, ?_, hOutcome, ?_, ?_⟩
          · rw [Evaluation.readReals_eq_ok_iff] at hNumbers ⊢
            exact Evaluation.read_of_isPrefix hMiddle hNumbers
          · exact @Evaluation.read_ofOutput _ ⟨first.length, 0⟩ _ [.real outcome.output] hAt rfl
          · have hRead := @Evaluation.read_ofOutput _ ⟨first.length, 1⟩ _
              (outcome.treeOutputs.map .real) hAt rfl
            rwa [List.length_map, hTrees] at hRead

/-- A selection is read in one way. -/
theorem Reads.unique {nodes : List Node} {selection : Selection} {values others : List Value}
    (h : Reads nodes vector selection values) (hOther : Reads nodes vector selection others) :
    others = values := by
  obtain ⟨_, known, hKnown, hRead⟩ := h
  have hSame := hOther.read hKnown
  rw [hRead] at hSame
  exact (Except.ok.inj hSame).symm

/-- Faithful features have the same values with gated edges. -/
theorem Passes.numbers_eq (h : Passes options old new) (hOld : old.Sound)
    (hNodes : old.nodes.toList = first ++ .forest input ensemble :: later)
    (hKnown : old.evaluate vector = .ok known)
    (hRun : GatedRun vector .empty old.nodes.toList seen) {original numbers : List Float}
    (hOriginal : known.readReals input = .ok original)
    (hNumbers : seen.readReals input = .ok numbers)
    (hInput : ∀ element ∈ input, Faithful old.nodes.toList known element.output) :
    numbers = original := by
  have hEvaluates : Evaluates old.nodes.toList vector := ⟨hOld.typed, known, hKnown⟩
  have hAfter := (h.evaluates_iff hOld).mp hEvaluates
  obtain ⟨state, hRebuilds, rfl⟩ := h
  have hStandard := fun node hNode => @TypedSequence.isStandard_of_mem _ node hOld.typed hNode
  have hStart := linked_start options
  have hMirrors := hRebuilds.mirrors hStandard hStart (mirrors_start options) hAfter hKnown
    (closedPorts_faithful old.nodes.toList known)
  have hShows := hRebuilds.shows hOld.typed hStart fits_empty
    (shows_start vector .empty options) hAfter hRun
  -- The new graph holds the same elements for the features, whichever way they are found.
  have hType : Selection.HasType old.nodes.toList .real input := by
    have hTyped := hOld.typed
    rw [hNodes] at hTyped ⊢
    obtain ⟨hNode, _⟩ := hTyped.node_of_append_cons
    exact (hNode.inputs ⟨"input", input, .real⟩ (by simp [Node.inputs])).append _
  have hFollows := ((hRebuilds.linked hStandard hStart).follows hType).1
  have hDirect := hMirrors.reads hAfter hInput hFollows
    ⟨hOld.typed, known, hKnown, Evaluation.readReals_eq_ok_iff.mp hOriginal⟩
  have hGated := hShows.reads hAfter hFollows (Evaluation.readReals_eq_ok_iff.mp hNumbers)
  exact List.map_injective_iff.mpr (fun _ _ hSame => Value.real.inj hSame)
    (hDirect.unique hGated)

/-- An expansion keeps the output and the tree outputs of a forest. -/
theorem Expands.forestComputes (h : Expands options old new) (hOld : old.Sound)
    (hNodes : old.nodes.toList = first ++ .forest input ensemble :: later)
    (hInputs : ∀ size, Node.input size ∈ old.nodes.toList → vector.length = size) :
    ∃ known seen original numbers outcome,
      ForestComputes old new first.length input ensemble vector known seen original numbers
        outcome := by
  have hForests : ExpandableForests old.nodes.toList :=
    fun input ensemble hMem => (h.acceptable _ hMem input ensemble rfl).2.1
  have hCovered : CoveredForests old.nodes.toList :=
    fun input ensemble hMem => (h.acceptable _ hMem input ensemble rfl).2.2
  have hEvaluates := (hOld.typed.evaluates_iff hForests hCovered).mpr hInputs
  obtain ⟨known, hKnown⟩ := hEvaluates.2
  obtain ⟨original, direct, hOriginal, _, hDirect, _⟩ := hOld.exists_outcome hNodes hKnown
  obtain ⟨seen, hRun⟩ := @TypedSequence.exists_gatedRun vector .empty [] old.nodes.toList
    hOld.typed hForests hCovered fits_empty hInputs
  have hShown : ∀ {name : String} {selection : Selection} {values : List Value},
      old.output? name = some selection → seen.read selection = .ok values →
      new.computeOutput vector name = .ok values :=
    fun hName hRead => h.computeOutput_gated hOld hEvaluates hRun
      (NamedSelections.mem_of_find? hName) hRead
  have hCut := hRun
  have hTyped := hOld.typed
  rw [hNodes] at hCut hTyped
  obtain ⟨numbers, outcome, hNumbers, hOutcome, hOutput, hTrees⟩ :=
    hCut.exists_outcome hTyped.of_append
  refine ⟨known, seen, original, numbers, outcome, hKnown, hOriginal, ⟨direct, hDirect⟩, hRun,
    fun name selection hName => ?_, hNumbers, hOutcome, fun name hName => hShown hName hOutput,
    fun name hName => hShown hName hTrees, fun hInput => ?_⟩
  · obtain ⟨values, hRead⟩ := hRun.exists_read hOld (NamedSelections.mem_of_find? hName)
    exact ⟨values, hRead, hShown hName hRead⟩
  · obtain ⟨rebuilt, hPass, _⟩ := h
    exact hPass.numbers_eq hOld hNodes hKnown hRun hOriginal hNumbers hInput

end Forest

/-- Without checks, an expansion that has come to a forest, which does not read the feature of
the largest index, accepts it exactly if its roots and edges lead to nodes, each node is
entered and each edge is numbered; an edge that does not descend is reported as a broken
invariant.  What is accepted is computed as by the evaluation of the forest. -/
theorem Graph.Built.uncheckedExpansion {graph : Graph} (hGraph : graph.Built)
    {first later : List Node} {input : Selection} {ensemble : Forest}
    (hNodes : graph.nodes.toList = first ++ .forest input ensemble :: later)
    (hWords : ensemble.ReadsBelow Index.largest)
    {options : RebuildOptions} (hUnchecked : options.checkForests = false) {changed : Bool}
    {middle : Rebuild}
    (hFirst : Succeeds (rebuildNodes expandNode 0 first) (start options) changed middle) :
    UncheckedExpansion graph first input ensemble middle := by
  have hSound := hGraph.sound
  have hTyped := hSound.typed
  rw [hNodes] at hTyped
  obtain ⟨hNode, hStandard⟩ := hTyped.node_of_append_cons
  obtain ⟨_, hRebuilds⟩ := @Linked.of_rebuildNodes [] first _ _ _ (linked_start options)
    hTyped.of_append hFirst
  have hLinked : Linked first middle :=
    hRebuilds.linked (fun node hMem => hTyped.of_append.isStandard_of_mem hMem)
      (linked_start options)
  have hOptions : middle.options = options := hRebuilds.options
  -- The graph has accepted the forest, so its input is wide enough.
  have hReads := (Forest.requiredDimension_le_iff hWords).mp hNode.forest_wide
  refine ⟨⟨fun ⟨done, after, hExpand⟩ => ?_, fun hForest => ?_⟩, fun hAscends => ?_,
    fun before result after hSame hExpand vector hInputs => ?_⟩
  · obtain ⟨_, hReplaces⟩ := hLinked.of_expandNode hNode hStandard hExpand
    exact (hReplaces.acceptable input ensemble rfl).2.1
  · refine hLinked.exists_expandNode hNode hStandard ?_
    rintro other same hForestNode
    cases hForestNode
    rw [hOptions, hUnchecked]
    exact ⟨fun hChecked => (by cases hChecked), hForest, hReads⟩
  · obtain ⟨error, after, hFails, hCategory⟩ :=
      hLinked.exists_fails_expandNode hNode hReads (hOptions.symm ▸ hUnchecked) hAscends
    refine ⟨error, after, hCategory, hFails, fun before hBefore => fails_expand ?_⟩
    rw [hBefore, hOptions, hNodes]
    exact fails_rebuildNodes hFirst (by rwa [Nat.zero_add])
  · exact (hSound.of_expand hExpand).forestComputes hSound hNodes hInputs

namespace Graph

/-- A forest with a shared child, behind the input that it reads. -/
theorem Built.uncheckedExpansion_sharedChild : ∃ changed middle,
    sharedChild.Built ∧ sharedChild.nodes.toList =
      [.input 2] ++ .forest (Selection.ofOutput ⟨0, 0⟩ 2) Forest.sharedChild :: [] ∧
    Forest.sharedChild.ReadsBelow Index.largest ∧
    (⟨10, false⟩ : RebuildOptions).checkForests = false ∧
    Succeeds (rebuildNodes expandNode 0 [.input 2]) (start ⟨10, false⟩) changed middle ∧
    UncheckedExpansion sharedChild [.input 2] (Selection.ofOutput ⟨0, 0⟩ 2) Forest.sharedChild
      middle := by
  have hTyped : TypedSequence ([] ++ [Node.input 2]) :=
    @TypedSequence.of_append _ [_] built_sharedChild.sound.typed
  obtain ⟨changed, middle, hFirst⟩ := (linked_start ⟨10, false⟩).exists_rebuildNodes hTyped
    fun node hNode => by
      rintro input ensemble rfl
      cases List.mem_singleton.mp hNode
  have hWords : Forest.sharedChild.ReadsBelow Index.largest := by decide
  exact ⟨changed, middle, built_sharedChild, rfl, hWords, rfl, hFirst,
    built_sharedChild.uncheckedExpansion rfl hWords rfl hFirst⟩

end Graph

/-! ## Features that are not faithful -/

namespace Forest

/-- One node that tells whether its feature exceeds one half. -/
def oneNode : Forest where
  nodes := #[⟨.threshold 0 0.5, ⟨.constant 0, .leaf⟩, ⟨.constant 1, .leaf⟩, 0⟩]
  roots := [0]
  bias := 0

/-- The second root does not let the input through to the shared child. -/
theorem not_gated_sharedChild : ¬ sharedChild.Gated [1, -1] 2 := by
  intro hGated
  obtain ⟨_, hDecides⟩ := (gated_of_lastEdgeTo (by decide) lastEdgeTo_sharedChild).mp hGated
  have hOther : sharedChild.Decides [1, -1] 1 false := ⟨_, rfl, rfl⟩
  cases hOther.unique hDecides

theorem gateFlags_sharedChild :
    sharedChild.GateFlags [1, -1] [false, true, true, false, false, false] := by
  have hFirst : sharedChild.Decides [1, -1] 0 true := ⟨_, rfl, rfl⟩
  have hSecond : sharedChild.Decides [1, -1] 1 false := ⟨_, rfl, rfl⟩
  have hNumbers : ∀ index decision, index < 3 →
      sharedChild.Numbers index decision (2 * index + decision.toNat) := by
    intro index decision hIndex
    match index with
    | 0 | 1 | 2 => exact ⟨_, rfl, rfl⟩
  refine .cons ⟨0, false, hNumbers 0 false (by decide), ?_⟩
    (.cons ⟨0, true, hNumbers 0 true (by decide), ?_⟩
    (.cons ⟨1, false, hNumbers 1 false (by decide), ?_⟩
    (.cons ⟨1, true, hNumbers 1 true (by decide), ?_⟩
    (.cons ⟨2, false, hNumbers 2 false (by decide), ?_⟩
    (.cons ⟨2, true, hNumbers 2 true (by decide), ?_⟩ .nil)))))
  · simp only [Bool.false_eq_true, false_iff]
    exact fun hBoth => by cases hFirst.unique hBoth.2
  · exact iff_of_true rfl ⟨.root (.head _), hFirst⟩
  · exact iff_of_true rfl ⟨.root (.tail _ (.head _)), hSecond⟩
  · simp only [Bool.false_eq_true, false_iff]
    exact fun hBoth => by cases hSecond.unique hBoth.2
  · simp only [Bool.false_eq_true, false_iff]
    exact fun hBoth => not_gated_sharedChild hBoth.1
  · simp only [Bool.false_eq_true, false_iff]
    exact fun hBoth => not_gated_sharedChild hBoth.1

end Forest

namespace Graph

/-- A forest whose feature depends on a mark below the shared child of another. -/
def markedFeature : Graph where
  nodes := #[.input 2, .forest (Selection.ofOutput ⟨0, 0⟩ 2) Forest.sharedChild,
    .constant (.reals [0, 1]), .select [⟨⟨2, 0⟩, 0⟩] [⟨⟨2, 0⟩, 1⟩] [⟨⟨1, 2⟩, 5⟩],
    .forest [⟨⟨3, 0⟩, 0⟩] Forest.oneNode]
  outputs := [("output", Selection.ofOutput ⟨4, 0⟩ 1)]

theorem built_markedFeature : markedFeature.Built := by
  have hInput : Built ⟨#[.input 2], []⟩ := @Built.add _ _ (.input 2) 0 .empty rfl rfl
  have hShared := @Built.add _ _ (.forest (Selection.ofOutput ⟨0, 0⟩ 2) Forest.sharedChild) 1
    hInput rfl rfl
  have hConstant := @Built.add _ _ (.constant (.reals [0, 1])) 2 hShared rfl rfl
  have hSelect := @Built.add _ _ (.select [⟨⟨2, 0⟩, 0⟩] [⟨⟨2, 0⟩, 1⟩] [⟨⟨1, 2⟩, 5⟩]) 3
    hConstant rfl rfl
  have hForest := @Built.add _ _ (.forest [⟨⟨3, 0⟩, 0⟩] Forest.oneNode) 4 hSelect rfl rfl
  exact @Built.addOutput _ _ "output" (Selection.ofOutput ⟨4, 0⟩ 1) hForest rfl

/-- Both forests are expandable, the second even valid. -/
theorem expandableForests_markedFeature : ExpandableForests markedFeature.nodes.toList := by
  intro input ensemble hMem
  simp only [markedFeature, List.mem_cons, List.not_mem_nil, or_false, reduceCtorEq,
    Node.forest.injEq, false_or] at hMem
  rcases hMem with ⟨_, rfl⟩ | ⟨_, rfl⟩
  · exact Forest.expandable_sharedChild
  · exact (Forest.validate_eq_ok_iff.mp (rfl : Forest.oneNode.validate = .ok ())).expandable

theorem coveredForests_markedFeature : CoveredForests markedFeature.nodes.toList := by
  intro input ensemble hMem
  simp only [markedFeature, List.mem_cons, List.not_mem_nil, or_false, reduceCtorEq,
    Node.forest.injEq, false_or] at hMem
  rcases hMem with ⟨rfl, rfl⟩ | ⟨rfl, rfl⟩ <;> decide

/-- The mark below the shared child is not set, so the feature of the second forest is 0. -/
theorem exists_gatedRun_markedFeature : ∃ seen,
    GatedRun [1, -1] .empty markedFeature.nodes.toList seen ∧
      seen.read (Selection.ofOutput ⟨4, 0⟩ 1) = .ok [.real 0] := by
  have hFlags : Forest.oneNode.GateFlags [0] [true, false] := by
    have hFirst : Forest.oneNode.Decides [0] 0 false := ⟨_, rfl, rfl⟩
    refine .cons ⟨0, false, ⟨_, rfl, rfl⟩, ?_⟩ (.cons ⟨0, true, ⟨_, rfl, rfl⟩, ?_⟩ .nil)
    · exact iff_of_true rfl ⟨.root (.head _), hFirst⟩
    · simp only [Bool.false_eq_true, false_iff]
      exact fun hBoth => by cases hFirst.unique hBoth.2
  refine ⟨_, .cons (.elementary rfl rfl) (.cons (.forest rfl rfl Forest.gateFlags_sharedChild)
    (.cons (.elementary rfl rfl) (.cons (.elementary rfl rfl)
    (.cons (.forest rfl rfl hFlags) .nil)))), rfl⟩

/-- The forest behind the mark has another output in the expanded graph than in the graph. -/
theorem expand_markedFeature_ne :
    markedFeature.Built ∧ ExpandableForests markedFeature.nodes.toList ∧
    (∀ size, Node.input size ∈ markedFeature.nodes.toList → [(1 : Float), -1].length = size) ∧
    ∃ result after known outcome,
      Succeeds (Rebuild.expand markedFeature) (start ⟨10, false⟩) result after ∧
      markedFeature.evaluate [1, -1] = .ok known ∧
      known.readReals [⟨⟨3, 0⟩, 0⟩] = .ok [1] ∧ Forest.oneNode.evaluate [1] = .ok outcome ∧
      markedFeature.output? "output" =
        some (Selection.ofOutput ⟨4, ForestPort.output.index⟩ 1) ∧
      result.computeOutput [1, -1] "output" ≠ .ok [.real outcome.output] := by
  have hSound := built_markedFeature.sound
  have hInputs : ∀ size, Node.input size ∈ markedFeature.nodes.toList →
      [(1 : Float), -1].length = size := by
    intro size hMem
    simp only [markedFeature, List.mem_cons, List.not_mem_nil, or_false, reduceCtorEq,
      Node.input.injEq] at hMem
    exact hMem.symm
  obtain ⟨result, after, hExpand⟩ := @Sound.exists_expand _ (start ⟨10, false⟩) hSound
    fun node hMem input ensemble hNode => ⟨fun hChecked => (by cases hChecked),
      expandableForests_markedFeature input ensemble (hNode ▸ hMem),
      coveredForests_markedFeature input ensemble (hNode ▸ hMem)⟩
  have hEvaluates := (hSound.typed.evaluates_iff expandableForests_markedFeature
    coveredForests_markedFeature).mpr hInputs
  obtain ⟨seen, hRun, hRead⟩ := exists_gatedRun_markedFeature
  have hOutput := (hSound.of_expand hExpand).computeOutput_gated hSound hEvaluates hRun
    (.head _) hRead
  refine ⟨built_markedFeature, expandableForests_markedFeature, hInputs, result, after, _, _,
    hExpand, rfl, rfl, rfl, rfl, fun hSame => ?_⟩
  rw [hOutput] at hSame
  exact absurd hSame (by decide)

end Graph

end ForestGraph
