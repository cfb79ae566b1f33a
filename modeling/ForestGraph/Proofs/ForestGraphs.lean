import ForestGraph.Proofs.Preservation

/-!
# The graph of one forest

`Graph.ofForest` makes a graph of an input and one forest, exactly for the valid
forests and the inputs that are wide enough for them.  The graph, and also what
valid settings make of it, compute for every vector of the right width the outcome
of the forest itself, and refuse all other vectors.
-/

namespace ForestGraph

open Rebuild

namespace Graph

/-- The nodes of the graph of a forest. -/
def forestNodes (forest : Forest) (width : Nat) : List Node :=
  [.input width, .forest (Selection.ofOutput ⟨0, 0⟩ width) forest]

/-- The graph of a forest, with its outputs in the order of their names. -/
def forestGraph (forest : Forest) (width : Nat) : Graph :=
  ⟨(forestNodes forest width).toArray,
    [(ForestPort.edgeIndicator.name, Selection.ofOutput ⟨1, 2⟩ forest.edgeCount),
      (ForestPort.output.name, Selection.ofOutput ⟨1, 0⟩ 1),
      (ForestPort.treeOutputs.name, Selection.ofOutput ⟨1, 1⟩ forest.treeCount)]⟩

/-- The graph computes the outcome of a forest under the names of its ports. -/
structure Computes (graph : Graph) (vector : List Float) (outcome : Outcome) : Prop where
  evaluates : ∃ known, graph.evaluate vector = .ok known
  output : graph.computeOutput vector "output" = .ok [.real outcome.output]
  treeOutputs : graph.computeOutput vector "treeOutputs" = .ok (outcome.treeOutputs.map .real)
  edgeIndicator : graph.computeOutput vector "edgeIndicatorVector" =
    .ok (outcome.edgeIndicator.map .boolean)

variable {forest : Forest} {width : Nat}

/-- A forest that fits an input is the second node of a typed sequence. -/
theorem wellTyped_forest (hWide : forest.requiredDimension ≤ width) :
    (Node.forest (Selection.ofOutput ⟨0, 0⟩ width) forest).WellTyped [.input width] := by
  refine ⟨fun input hInput => ?_, ?_⟩
  · rw [List.mem_singleton.mp hInput]
    exact @Selection.hasType_ofOutput _ ⟨0, 0⟩ _ ⟨"output", .real, width⟩ rfl rfl
  · simp [Node.checkShape, hWide]

/-- All elements of a port of the forest may be named. -/
theorem addOutput_forestNodes (outputs : NamedSelections) (port : ForestPort)
    {declared : OutputPort}
    (hPort : (Node.forest (Selection.ofOutput ⟨0, 0⟩ width) forest).outputs[port.index]? =
      some declared) :
    elements ⟨(forestNodes forest width).toArray, outputs⟩ ⟨1, port.index⟩ =
        .ok (Selection.ofOutput ⟨1, port.index⟩ declared.size) ∧
      addOutput ⟨(forestNodes forest width).toArray, outputs⟩ port.name
          (Selection.ofOutput ⟨1, port.index⟩ declared.size) =
        .ok ⟨(forestNodes forest width).toArray,
          outputs.insert port.name (Selection.ofOutput ⟨1, port.index⟩ declared.size)⟩ := by
  refine ⟨elements_of_port rfl hPort, addOutput_eq_ok_iff.mpr ⟨fun element hElement => ?_, rfl⟩⟩
  exact ⟨_, @Selection.hasType_ofOutput _ ⟨1, port.index⟩ _ declared rfl hPort element hElement⟩

/-- The outputs are named one after the other, and sorted into their order on the way. -/
theorem nameOutputs_forestNodes (hNodes : Built ⟨(forestNodes forest width).toArray, []⟩) :
    ForestPort.all.foldlM (fun (graph : Graph) port => do
        let elements ← graph.elements ⟨1, port.index⟩
        graph.addOutput port.name elements) ⟨(forestNodes forest width).toArray, []⟩ =
      .ok (forestGraph forest width) ∧ (forestGraph forest width).Built := by
  obtain ⟨hOutput, hAddOutput⟩ := @addOutput_forestNodes forest width [] .output _ rfl
  obtain ⟨hTrees, hAddTrees⟩ := @addOutput_forestNodes forest width _ .treeOutputs _ rfl
  obtain ⟨hEdges, hAddEdges⟩ := @addOutput_forestNodes forest width _ .edgeIndicator _ rfl
  refine ⟨?_, ((hNodes.addOutput hAddOutput).addOutput hAddTrees).addOutput hAddEdges⟩
  rw [ForestPort.all, List.foldlM_cons]
  refine except_bind_eq_ok_iff.mpr ⟨_, except_bind_eq_ok_iff.mpr ⟨_, hOutput, hAddOutput⟩, ?_⟩
  rw [List.foldlM_cons]
  refine except_bind_eq_ok_iff.mpr ⟨_, except_bind_eq_ok_iff.mpr ⟨_, hTrees, hAddTrees⟩, ?_⟩
  rw [List.foldlM_cons]
  exact except_bind_eq_ok_iff.mpr ⟨_, except_bind_eq_ok_iff.mpr ⟨_, hEdges, hAddEdges⟩, rfl⟩

/-- The graph of a valid forest is built by adding its nodes and its outputs. -/
theorem ofForest_of_validate (hValid : forest.validate = .ok ())
    (hWide : forest.requiredDimension ≤ width) :
    ofForest forest width = .ok (forestGraph forest width) ∧ (forestGraph forest width).Built := by
  have hInput : empty.add (.input width) = .ok (⟨#[.input width], []⟩, 0) :=
    add_of_wellTyped ⟨by simp [Node.inputs], rfl⟩
  have hFeatures : elements ⟨#[.input width], []⟩ ⟨0, 0⟩ =
      .ok (Selection.ofOutput ⟨0, 0⟩ width) :=
    @elements_of_port ⟨#[.input width], []⟩ ⟨0, 0⟩ _ ⟨"output", .real, width⟩ rfl rfl
  have hForest : add ⟨#[.input width], []⟩ (.forest (Selection.ofOutput ⟨0, 0⟩ width) forest) =
      .ok (⟨(forestNodes forest width).toArray, []⟩, 1) := add_of_wellTyped (wellTyped_forest hWide)
  have hNodes := @Built.add _ _ _ _ (@Built.add _ _ _ _ .empty rfl hInput) rfl hForest
  obtain ⟨hOutputs, hBuilt⟩ := nameOutputs_forestNodes hNodes
  have hFits : ¬ width < forest.requiredDimension := Nat.not_lt.mpr hWide
  refine ⟨?_, hBuilt⟩
  unfold ofForest
  refine except_bind_eq_ok_iff.mpr ⟨(), hValid, ?_⟩
  rw [if_neg hFits]
  refine except_bind_eq_ok_iff.mpr ⟨_, hInput, except_bind_eq_ok_iff.mpr ⟨_, hFeatures, ?_⟩⟩
  exact except_bind_eq_ok_iff.mpr ⟨_, hForest, hOutputs⟩

/-- A forest has a graph exactly if it is valid and the input is wide enough. -/
theorem ofForest_eq_ok_iff {graph : Graph} :
    ofForest forest width = .ok graph ↔ forest.validate = .ok () ∧
      forest.requiredDimension ≤ width ∧ graph = forestGraph forest width := by
  constructor
  · intro h
    have hBoth : forest.validate = .ok () ∧ forest.requiredDimension ≤ width := by
      unfold ofForest at h
      obtain ⟨_, hValid, hRest⟩ := except_bind_eq_ok_iff.mp h
      refine ⟨hValid, Nat.not_lt.mp fun hNarrow => ?_⟩
      change (if width < forest.requiredDimension then _ else _) = _ at hRest
      rw [if_pos hNarrow] at hRest
      cases hRest
    rw [(ofForest_of_validate hBoth.1 hBoth.2).1] at h
    exact ⟨hBoth.1, hBoth.2, (Except.ok.inj h).symm⟩
  · rintro ⟨hValid, hWide, rfl⟩
    exact (ofForest_of_validate hValid hWide).1

/-- The only forest of the graph reads its input. -/
theorem forest_mem_forestGraph_iff {input : Selection} {ensemble : Forest} :
    Node.forest input ensemble ∈ (forestGraph forest width).nodes.toList ↔
      input = Selection.ofOutput ⟨0, 0⟩ width ∧ ensemble = forest := by
  simp [forestGraph, forestNodes]

theorem validForests_forestGraph (hValid : forest.validate = .ok ()) :
    ValidForests (forestGraph forest width).nodes.toList := by
  intro input ensemble hMem
  obtain ⟨-, rfl⟩ := forest_mem_forestGraph_iff.mp hMem
  exact hValid

theorem coveredForests_forestGraph_iff :
    CoveredForests (forestGraph forest width).nodes.toList ↔ forest.ReadsBelow width := by
  have hLength := Selection.length_ofOutput ⟨0, 0⟩ width
  constructor
  · intro h
    have hReads := h _ _ (forest_mem_forestGraph_iff.mpr ⟨rfl, rfl⟩)
    rwa [hLength] at hReads
  · rintro h input ensemble hMem
    obtain ⟨rfl, rfl⟩ := forest_mem_forestGraph_iff.mp hMem
    rwa [hLength]

theorem input_mem_forestGraph_iff {size : Nat} :
    Node.input size ∈ (forestGraph forest width).nodes.toList ↔ size = width := by
  simp [forestGraph, forestNodes]

/-! ## Evaluation -/

/-- The graph of a forest computes what the forest computes. -/
theorem forestGraph_computes (hBuilt : (forestGraph forest width).Built) {vector : List Float}
    (hVector : vector.length = width) {outcome : Outcome}
    (hOutcome : forest.evaluate vector = .ok outcome) :
    (forestGraph forest width).Computes vector outcome := by
  have hSound := hBuilt.sound
  have hTyped : TypedSequence
      ([.input width] ++ [.forest (Selection.ofOutput ⟨0, 0⟩ width) forest]) := hSound.typed
  have hInput : Node.compute (.input width) vector .empty = .ok [vector.map .real] := by
    simp [Node.compute, Node.checkExtent, hVector]
  have hFeatures : Reads [.input width] vector (Selection.ofOutput ⟨0, 0⟩ width)
      (vector.map .real) := by
    have hFirst : [vector.map Value.real][0]? = some (vector.map Value.real) := rfl
    have hReads := @Reads.last [] _ _ _ _ _ _ hTyped.of_append rfl hInput hFirst
    rwa [List.length_map, hVector] at hReads
  obtain ⟨_, known, hKnown, hRead⟩ := hFeatures
  have hPorts : Node.compute (.forest (Selection.ofOutput ⟨0, 0⟩ width) forest) vector known =
      .ok outcome.ports :=
    Node.compute_forest_eq_ok_iff.mpr
      ⟨vector, outcome, Evaluation.readReals_eq_ok_iff.mpr hRead, hOutcome, rfl⟩
  have hReads : ∀ {port : Nat} {values : List Value}, outcome.ports[port]? = some values →
      Reads (forestGraph forest width).nodes.toList vector
        (Selection.ofOutput ⟨1, port⟩ values.length) values :=
    fun hValues => Reads.last hTyped hKnown hPorts hValues
  have hOutput := @hReads 0 _ rfl
  have hTrees := @hReads 1 _ rfl
  have hEdges := @hReads 2 _ rfl
  obtain ⟨hTreeCount, hEdgeCount⟩ := Forest.length_of_evaluate hOutcome
  rw [List.length_map, hTreeCount] at hTrees
  rw [List.length_map, hEdgeCount] at hEdges
  refine ⟨hOutput.evaluates.2, ?_, ?_, ?_⟩
  · exact (hSound.computeOutput_eq_ok_iff (by simp [forestGraph, ForestPort.name])).mpr hOutput
  · exact (hSound.computeOutput_eq_ok_iff (by simp [forestGraph, ForestPort.name])).mpr hTrees
  · exact (hSound.computeOutput_eq_ok_iff (by simp [forestGraph, ForestPort.name])).mpr hEdges

/-- Graphs that agree compute the same outcome. -/
theorem Computes.of_agreesOn {graph other : Graph} {vector : List Float} {outcome : Outcome}
    (h : graph.Computes vector outcome) (hAgrees : graph.AgreesOn other vector)
    (hNames : ∀ port : ForestPort, ∃ selection, (port.name, selection) ∈ graph.outputs) :
    other.Computes vector outcome := by
  obtain ⟨known, hKnown⟩ := h.evaluates
  have hSame : ∀ (port : ForestPort) {values : List Value},
      graph.computeOutput vector port.name = .ok values →
      other.computeOutput vector port.name = .ok values := by
    intro port values hValues
    obtain ⟨selection, hEntry⟩ := hNames port
    obtain ⟨found, hFound, hOther⟩ := hAgrees.values known hKnown _ hEntry
    rw [hFound] at hValues
    cases hValues
    exact hOther
  exact ⟨hAgrees.evaluates.mp h.evaluates, hSame .output h.output,
    hSame .treeOutputs h.treeOutputs, hSame .edgeIndicator h.edgeIndicator⟩

/-- A graph of expandable forests whose inputs have one width refuses all vectors of
other lengths. -/
theorem Sound.evaluate_of_length_ne {graph : Graph} (h : graph.Sound)
    (hForests : ExpandableForests graph.nodes.toList)
    (hCovered : CoveredForests graph.nodes.toList)
    (hInputs : ∀ size, Node.input size ∈ graph.nodes.toList ↔ size = width) {vector : List Float}
    (hVector : vector.length ≠ width) :
    graph.evaluate vector = .error (.extent (.inputFeatures width) vector.length) := by
  rcases h.typed.evaluates_or_fails hForests hCovered vector with ⟨_, hFits⟩ | ⟨size, hMem, _, hError⟩
  · exact absurd (hFits width ((hInputs width).mpr rfl)) hVector
  · rw [(hInputs size).mp hMem] at hError
    exact hError

/-- Expanding under valid settings is expanding from the start. -/
theorem expand_eq_ok_iff {graph result : Graph} {settings : Settings}
    (hSettings : settings.validate = .ok ()) :
    graph.expand settings = .ok result ↔
      ∃ after, Succeeds (Rebuild.expand graph) (start settings.rebuildOptions) result after := by
  unfold Graph.expand
  rw [hSettings]
  show ((Rebuild.expand graph).run (start settings.rebuildOptions)).1 = .ok result ↔ _
  unfold Succeeds
  constructor
  · exact fun h => ⟨_, Prod.ext h rfl⟩
  · rintro ⟨after, h⟩
    exact congrArg Prod.fst h

/-! ## Lowering -/

/-- The graph of a forest exists for the valid forests that the input is wide enough for.
Any valid settings expand it to a graph without forests, unless the forest reads the feature
of the largest index, and both graphs compute what the forest computes, or refuse the vector
for its length. -/
theorem ofForest_lowers (forest : Forest) (hWords : forest.ReadsBelow Index.largest)
    (width : Nat) (settings : Settings) (hSettings : settings.validate = .ok ()) :
    ((∃ graph, ofForest forest width = .ok graph) ↔
      forest.validate = .ok () ∧ forest.requiredDimension ≤ width) ∧
    ∀ graph, ofForest forest width = .ok graph →
      ∃ lowered, graph.expand settings = .ok lowered ∧
        (∀ node ∈ lowered.nodes.toList, node.isForest = false) ∧
        ∀ vector,
          (vector.length = width → ∃ outcome, forest.evaluate vector = .ok outcome ∧
            graph.Computes vector outcome ∧ lowered.Computes vector outcome) ∧
          (vector.length ≠ width → ∃ error, error.category = .dimensionMismatch ∧
            graph.evaluate vector = .error error ∧ lowered.evaluate vector = .error error) := by
  refine ⟨?_, fun graph hGraph => ?_⟩
  · simp only [ofForest_eq_ok_iff, exists_and_left, exists_eq, and_true]
  obtain ⟨hValid, hWide, rfl⟩ := ofForest_eq_ok_iff.mp hGraph
  have hBuilt := (ofForest_of_validate hValid hWide).2
  have hSound := hBuilt.sound
  have hForests := @validForests_forestGraph _ width hValid
  have hCovered :=
    coveredForests_forestGraph_iff.mpr ((Forest.requiredDimension_le_iff hWords).mp hWide)
  obtain ⟨lowered, after, hExpand⟩ := @Graph.Sound.exists_expand _
    (start settings.rebuildOptions) hSound (hForests.acceptable hCovered _)
  have hExpands := hSound.of_expand hExpand
  obtain ⟨hLowered, hElementary, hSame⟩ := hExpands.sound hSound
  refine ⟨lowered, (expand_eq_ok_iff hSettings).mpr ⟨after, hExpand⟩, hElementary, fun vector =>
    ⟨fun hVector => ?_, fun hVector => ?_⟩⟩
  · obtain ⟨outcome, hOutcome⟩ :=
      (Forest.validate_eq_ok_iff.mp hValid).expandable.exists_evaluate
        ((Forest.requiredDimension_le_iff hWords).mp (hVector ▸ hWide))
    have hComputes := forestGraph_computes hBuilt hVector hOutcome
    have hAgrees := @Expands.agreesOn _ _ _ hExpands hSound vector
      fun known _ => hForests.entersLast known
    refine ⟨outcome, hOutcome, hComputes, hComputes.of_agreesOn hAgrees fun port => ?_⟩
    cases port with
    | output => exact ⟨_, .tail _ (.head _)⟩
    | treeOutputs => exact ⟨_, .tail _ (.tail _ (.head _))⟩
    | edgeIndicator => exact ⟨_, .head _⟩
  -- Both graphs have inputs of this width only, so both refuse the vector for the same reason.
  · have hNone := (validForests_of_elementary hElementary).expandable
    have hInputs : ∀ size, Node.input size ∈ lowered.nodes.toList ↔ size = width :=
      fun size => (hSame size).trans input_mem_forestGraph_iff
    exact ⟨.extent (.inputFeatures width) vector.length, rfl,
      hSound.evaluate_of_length_ne hForests.expandable hCovered
        (fun _ => input_mem_forestGraph_iff) hVector,
      hLowered.evaluate_of_length_ne hNone (coveredForests_of_elementary hElementary) hInputs
        hVector⟩

/-- The two trees on two features: the vector of the right length is computed. -/
theorem ofForest_lowers_twoTrees :
    Forest.twoTrees.ReadsBelow Index.largest ∧ Settings.default.validate = .ok () ∧
    ∃ graph lowered outcome, ofForest Forest.twoTrees 2 = .ok graph ∧
      graph.expand Settings.default = .ok lowered ∧
      Forest.twoTrees.evaluate [0.75, 2] = .ok outcome ∧
      graph.Computes [0.75, 2] outcome ∧ lowered.Computes [0.75, 2] outcome := by
  have hWords : Forest.twoTrees.ReadsBelow Index.largest := by decide
  have hSettings := Settings.validate_default
  obtain ⟨hExists, hLowers⟩ :=
    ofForest_lowers Forest.twoTrees hWords 2 Settings.default hSettings
  obtain ⟨graph, hGraph⟩ := hExists.mpr ⟨rfl, by decide⟩
  obtain ⟨lowered, hLowered, _, hVectors⟩ := hLowers graph hGraph
  obtain ⟨outcome, hOutcome, hComputes, hSame⟩ := (hVectors [0.75, 2]).1 rfl
  exact ⟨hWords, hSettings, graph, lowered, outcome, hGraph, hLowered, hOutcome, hComputes,
    hSame⟩

end Graph

end ForestGraph
