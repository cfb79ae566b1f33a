import ForestGraph.Proofs.Preservation

/-!
# Forests that are not checked

The expansion itself rejects most malformed forests.  Of the others, it rebuilds
the output and the tree outputs faithfully, but a node that several edges lead to
has a single incoming indicator, that of the last edge.  The edge indicator is
therefore the one of the evaluation exactly for the inputs that enter every node
over its last edge.
-/

namespace ForestGraph

open Rebuild

/-- The ports that an expansion reproduces for an input: all that they depend on is
reproduced, and an edge indicator is one of a forest that is entered over last edges. -/
inductive Faithful (nodes : List Node) (known : Evaluation) : OutputRef → Prop where
  | intro {output : OutputRef} {node : Node} : nodes[output.node]? = some node →
      (∀ input ∈ node.inputs, ∀ element ∈ input.elements,
        Faithful nodes known element.output) →
      (output.port = ForestPort.edgeIndicator.index → node.EntersLast known) →
      Faithful nodes known output

theorem closedPorts_faithful (nodes : List Node) (known : Evaluation) :
    ClosedPorts nodes known (Faithful nodes known) := by
  intro output node hFaithful hNode
  cases hFaithful with
  | intro hFound hInputs hEnters =>
      rw [hFound] at hNode
      cases hNode
      exact ⟨hInputs, hEnters⟩

/-- All elements of a linked port are linked to the selection. -/
theorem follows_ofOutput {links : Std.HashMap OutputRef Selection} {output : OutputRef}
    {selection : Selection} (h : links[output]? = some selection) :
    Follows links (Selection.ofOutput output selection.length) selection := by
  unfold Follows Selection.ofOutput
  rw [List.forall₂_map_left_iff, List.forall₂_iff_get]
  refine ⟨by simp, fun index hLeft hRight => ⟨selection, h, ?_⟩⟩
  simp

/-! ## One forest of a graph -/

section Forest

variable {options : RebuildOptions} {old new : Graph} {vector : List Float} {known : Evaluation}
  {first later : List Node} {input : Selection} {ensemble : Forest} {name : String}

/-- A forest of an evaluated graph has read its features and has an outcome. -/
theorem Graph.Sound.exists_outcome (hOld : old.Sound)
    (hNodes : old.nodes.toList = first ++ .forest input ensemble :: later)
    (hKnown : old.evaluate vector = .ok known) :
    ∃ numbers outcome, known.readReals input = .ok numbers ∧
      Reads first vector input (numbers.map .real) ∧ ensemble.evaluate numbers = .ok outcome ∧
      Reads old.nodes.toList vector (Selection.ofOutput ⟨first.length, 2⟩ ensemble.edgeCount)
        (outcome.edgeIndicator.map .boolean) := by
  have hTyped := hOld.typed
  rw [Graph.evaluate_eq_evaluateNodes, hNodes] at hKnown
  rw [hNodes] at hTyped ⊢
  have hEvaluates : Evaluates (first ++ .forest input ensemble :: later) vector :=
    ⟨hTyped, known, hKnown⟩
  rw [evaluateNodes_append, except_bind_eq_ok_iff] at hKnown
  obtain ⟨start, hStart, hRest⟩ := hKnown
  have hPrefix := isPrefix_of_foldlM hRest
  rw [List.foldlM_cons, except_bind_eq_ok_iff] at hRest
  obtain ⟨_, hNode, _⟩ := hRest
  obtain ⟨ports, hPorts, _⟩ := Graph.computeNode_eq_ok_iff.mp hNode
  obtain ⟨numbers, outcome, hNumbers, hOutcome, rfl⟩ := Node.compute_forest_eq_ok_iff.mp hPorts
  have hRead := Evaluation.readReals_eq_ok_iff.mp hNumbers
  refine ⟨numbers, outcome, ?_, ⟨hTyped.of_append, start, hStart, hRead⟩, hOutcome, ?_⟩
  · exact Evaluation.readReals_eq_ok_iff.mpr (Evaluation.read_of_isPrefix hPrefix hRead)
  · rw [List.append_cons] at hTyped hEvaluates ⊢
    have hPort : outcome.ports[2]? = some (outcome.edgeIndicator.map .boolean) := rfl
    have hReads := Reads.last hTyped.of_append hStart hPorts hPort
    rw [List.length_map, (Forest.length_of_evaluate hOutcome).2] at hReads
    exact hReads.append_nodes hEvaluates

/-- Rebuilt nodes link the edge indicator of a forest among them that reads faithful ports,
and it is the indicator of the evaluation exactly if the input enters every node over its
last edge. -/
theorem Rebuilds.exists_flags {state : Rebuild}
    (h : Rebuilds [] (first ++ .forest input ensemble :: later) (start options) state)
    (hTyped : TypedSequence (first ++ .forest input ensemble :: later))
    (hKnown : evaluateNodes vector (first ++ .forest input ensemble :: later) = .ok known)
    (hAfter : Evaluates state.emitted vector)
    (hInput : ∀ element ∈ input,
      Faithful (first ++ .forest input ensemble :: later) known element.output)
    {numbers : List Float} (hNumbers : Reads first vector input (numbers.map .real))
    {outcome : Outcome} (hOutcome : ensemble.evaluate numbers = .ok outcome) :
    ∃ edges, ∃ flags : List Bool,
      state.links[(⟨first.length, 2⟩ : OutputRef)]? = some edges ∧
      edges.length = ensemble.edgeCount ∧
      Reads state.emitted vector edges (flags.map .boolean) ∧
      (flags = outcome.edgeIndicator ↔ ensemble.EntersLast numbers) := by
  -- The nodes before the forest are rebuilt first, and what they compute is mirrored.
  obtain ⟨middle, hFirst, hRest⟩ := h.split
  cases hRest with
  | @cons _ _ _ _ next _ hNode hLater =>
      have hStandard : ∀ node ∈ first, node.isStandard = true :=
        fun node hMem => hTyped.isStandard_of_mem (List.mem_append_left _ hMem)
      obtain ⟨start, hStart⟩ := hNumbers.evaluates.2
      have hPrefix : start.values.toList <+: known.values.toList := by
        rw [evaluateNodes_append, hStart] at hKnown
        exact isPrefix_of_foldlM hKnown
      obtain ⟨more, hMore, _⟩ := hNode.emitted
      obtain ⟨last, hLast⟩ := hLater.exists_emitted
      rw [hLast] at hAfter ⊢
      have hNext := hAfter.of_append
      have hMiddle : Evaluates middle.emitted vector := by
        rw [hMore] at hNext
        exact hNext.of_append
      have hClosed := closedPorts_faithful (first ++ .forest input ensemble :: later) known
      have hMirrors := hFirst.mirrors hStandard (linked_start options) (mirrors_start options)
        hMiddle hStart (hClosed.of_isPrefix hPrefix)
      cases hNode with
      | copied hForest => cases hForest
      | @expanded _ features output trees edges _ _ _ _ hForest hFollows hExpanded =>
          obtain ⟨_, _, flags, hEdges, hSame⟩ := hExpanded.reads_outcome hForest.1 hFollows
            hMirrors hMiddle hInput hNumbers hOutcome
          -- The nodes behind the forest leave its links in place.
          have hLink : state.links[(⟨first.length, 2⟩ : OutputRef)]? = some edges := by
            rw [hLater.kept (by simp)]
            exact hExpanded.linked.2.2
          exact ⟨edges, flags, hLink, hExpanded.edgesSize, hEdges.append_nodes hAfter, hSame⟩

/-- A pass rebuilds the edge indicator of a forest that reads faithful ports. -/
theorem Passes.exists_flags (h : Passes options old new) (hOld : old.Sound)
    (hNodes : old.nodes.toList = first ++ .forest input ensemble :: later)
    (hKnown : old.evaluate vector = .ok known)
    (hInput : ∀ element ∈ input, Faithful old.nodes.toList known element.output)
    (hEntry : (name, Selection.ofOutput ⟨first.length, 2⟩ ensemble.edgeCount) ∈ old.outputs)
    {numbers : List Float} (hNumbers : Reads first vector input (numbers.map .real))
    {outcome : Outcome} (hOutcome : ensemble.evaluate numbers = .ok outcome) :
    ∃ flags : List Bool, new.computeOutput vector name = .ok (flags.map .boolean) ∧
      (flags = outcome.edgeIndicator ↔ ensemble.EntersLast numbers) := by
  have hNew := (h.sound hOld).1
  have hAfter := (h.evaluates_iff hOld).mp ⟨hOld.typed, known, hKnown⟩
  have hTyped := hOld.typed
  obtain ⟨state, hRebuilds, rfl⟩ := h
  rw [Graph.evaluate_eq_evaluateNodes] at hKnown
  rw [hNodes] at hRebuilds hTyped hInput hKnown
  obtain ⟨edges, flags, hLink, hSize, hEdges, hSame⟩ :=
    hRebuilds.exists_flags hTyped hKnown hAfter hInput hNumbers hOutcome
  have hFollows := follows_ofOutput hLink
  rw [hSize] at hFollows
  have hNewEntry : (name, edges) ∈ old.outputs.follow state.links := by
    rw [← hFollows.followed]
    exact List.mem_map_of_mem (f := fun entry => (entry.1, followed state.links entry.2)) hEntry
  exact ⟨flags, (hNew.computeOutput_eq_ok_iff hNewEntry).mpr hEdges, hSame⟩

/-- A further pass over the rebuilt graph leaves the edge indicator as it is. -/
theorem Expands.exists_flags (h : Expands options old new) (hOld : old.Sound)
    (hNodes : old.nodes.toList = first ++ .forest input ensemble :: later)
    (hKnown : old.evaluate vector = .ok known)
    (hInput : ∀ element ∈ input, Faithful old.nodes.toList known element.output)
    (hEntry : (name, Selection.ofOutput ⟨first.length, 2⟩ ensemble.edgeCount) ∈ old.outputs)
    {numbers : List Float} (hNumbers : Reads first vector input (numbers.map .real))
    {outcome : Outcome} (hOutcome : ensemble.evaluate numbers = .ok outcome) :
    ∃ flags : List Bool, new.computeOutput vector name = .ok (flags.map .boolean) ∧
      (flags = outcome.edgeIndicator ↔ ensemble.EntersLast numbers) := by
  obtain ⟨rebuilt, hPass, hLast⟩ := h
  obtain ⟨flags, hFlags, hSame⟩ :=
    hPass.exists_flags hOld hNodes hKnown hInput hEntry hNumbers hOutcome
  rcases hLast with rfl | hSecond
  · exact ⟨flags, hFlags, hSame⟩
  · obtain ⟨hSound, hElementary, _⟩ := hPass.sound hOld
    -- The second pass finds no forest and cannot change any value.
    exact ⟨flags, hSecond.computeOutput_of_elementary hSound hElementary hFlags, hSame⟩

end Forest

/-- Whatever the shape of a forest, if its expansion succeeds and its input reads faithful
ports, the edge indicator after the expansion is the one before exactly if the input
enters every node over its last edge; it always does if no two edges lead to a node. -/
theorem Graph.Built.expand_edgeIndicator_iff {graph result : Graph} (hGraph : graph.Built)
    {state after : Rebuild} (hExpand : Succeeds (Rebuild.expand graph) state result after)
    {vector : List Float} {known : Evaluation} (hKnown : graph.evaluate vector = .ok known)
    {index : Nat} {input : Selection} {ensemble : Forest}
    (hNode : graph.nodes[index]? = some (.forest input ensemble))
    (hInput : ∀ element ∈ input, Faithful graph.nodes.toList known element.output)
    {name : String} (hName : graph.output? name =
      some (Selection.ofOutput ⟨index, ForestPort.edgeIndicator.index⟩ ensemble.edgeCount)) :
    ∃ numbers outcome, known.readReals input = .ok numbers ∧
      ensemble.evaluate numbers = .ok outcome ∧
      graph.computeOutput vector name = .ok (outcome.edgeIndicator.map .boolean) ∧
      (result.computeOutput vector name = .ok (outcome.edgeIndicator.map .boolean) ↔
        ensemble.EntersLast numbers) ∧
      (ensemble.Unshared →
        result.computeOutput vector name = .ok (outcome.edgeIndicator.map .boolean)) := by
  have hSound := hGraph.sound
  have hEntry := NamedSelections.mem_of_find? hName
  rw [← Array.getElem?_toList] at hNode
  obtain ⟨hBound, hFound⟩ := List.getElem?_eq_some_iff.mp hNode
  have hSplit := List.take_append_drop index graph.nodes.toList
  rw [List.drop_eq_getElem_cons hBound, hFound] at hSplit
  have hLength : (graph.nodes.toList.take index).length = index := by
    rw [List.length_take]
    omega
  rw [← hLength] at hEntry
  obtain ⟨numbers, outcome, hFeatures, hNumbers, hOutcome, hReads⟩ :=
    hSound.exists_outcome hSplit.symm hKnown
  obtain ⟨flags, hFlags, hSame⟩ := (hSound.of_expand hExpand).exists_flags hSound hSplit.symm hKnown
    hInput hEntry hNumbers hOutcome
  have hIff : result.computeOutput vector name = .ok (outcome.edgeIndicator.map .boolean) ↔
      ensemble.EntersLast numbers := by
    rw [hFlags, ← hSame, Except.ok.injEq]
    exact (List.map_injective_iff.mpr fun _ _ h => (Value.boolean.inj h)).eq_iff
  exact ⟨numbers, outcome, hFeatures, hOutcome, (hSound.computeOutput_eq_ok_iff hEntry).mpr hReads,
    hIff, fun hUnshared => hIff.mpr (Forest.Unshared.entersLast hUnshared)⟩

/-! ## A shared child -/

namespace Forest

/-- Two trees that share an interior node below their roots. -/
def sharedChild : Forest where
  nodes := #[
    ⟨.threshold 0 0, ⟨.constant 0, .leaf⟩, ⟨.constant 1, .interior 2⟩, 0⟩,
    ⟨.threshold 1 0, ⟨.constant 0, .leaf⟩, ⟨.constant 1, .interior 2⟩, 2⟩,
    ⟨.threshold 0 0, ⟨.constant 2, .leaf⟩, ⟨.constant 3, .leaf⟩, 4⟩]
  roots := [0, 1]
  bias := 0

theorem sharedChild_edgeTo_iff {parent child : Nat} {decision : Bool} :
    sharedChild.EdgeTo parent decision child ↔
      parent < 2 ∧ decision = true ∧ child = 2 := by
  constructor
  · rintro ⟨node, hNode, hTarget⟩
    match parent, decision with
    | 0, false | 1, false | 2, false | 2, true =>
        cases hNode
        cases hTarget
    | 0, true | 1, true =>
        cases hNode
        cases hTarget
        exact ⟨by decide, rfl, rfl⟩
    | _ + 3, _ => cases hNode
  · rintro ⟨hParent, rfl, rfl⟩
    match parent with
    | 0 | 1 => exact ⟨_, rfl, rfl⟩

theorem expandable_sharedChild : sharedChild.Expandable := by
  refine ⟨by decide, fun hEdge => ?_, fun index hIndex => ?_, fun number hNumber => ?_⟩
  · obtain ⟨hParent, _, rfl⟩ := sharedChild_edgeTo_iff.mp hEdge
    exact ⟨hParent, by decide⟩
  · match index with
    | 0 => exact .inl (.head _)
    | 1 => exact .inl (.tail _ (.head _))
    | 2 => exact .inr ⟨0, true, sharedChild_edgeTo_iff.mpr ⟨by decide, rfl, rfl⟩⟩
  · match number with
    | 0 => exact ⟨0, false, _, rfl, rfl⟩
    | 1 => exact ⟨0, true, _, rfl, rfl⟩
    | 2 => exact ⟨1, false, _, rfl, rfl⟩
    | 3 => exact ⟨1, true, _, rfl, rfl⟩
    | 4 => exact ⟨2, false, _, rfl, rfl⟩
    | 5 => exact ⟨2, true, _, rfl, rfl⟩

/-- The last edge to the shared child is that of the second root. -/
theorem lastEdgeTo_sharedChild : sharedChild.LastEdgeTo 1 true 2 := by
  refine ⟨by decide, sharedChild_edgeTo_iff.mpr ⟨by decide, rfl, rfl⟩,
    fun {other choice} _ hOther => ?_⟩
  obtain ⟨hParent, rfl, _⟩ := sharedChild_edgeTo_iff.mp hOther
  simp only [edgeRank, Bool.toNat_true]
  omega

/-- An input that leaves the second tree at its root enters the shared child over the
edge of the first root. -/
theorem not_entersLast_sharedChild : ¬ sharedChild.EntersLast [1, -1] := by
  intro h
  have hReached : sharedChild.Reached [1, -1] 2 :=
    .child (.root (.head _)) ⟨_, rfl, rfl⟩ (sharedChild_edgeTo_iff.mpr ⟨by decide, rfl, rfl⟩)
  obtain ⟨parent, decision, hLast, _, hDecides⟩ := h hReached (by decide)
  obtain ⟨rfl, rfl⟩ := lastEdgeTo_sharedChild.unique hLast
  have hOther : sharedChild.Decides [1, -1] 1 false := ⟨_, rfl, rfl⟩
  cases hOther.unique hDecides

theorem entersLast_sharedChild : sharedChild.EntersLast [-1, 1] := by
  intro index hReached hRoot
  cases hReached with
  | root hMem => exact absurd hMem hRoot
  | child _ _ hEdge =>
      obtain ⟨_, _, rfl⟩ := sharedChild_edgeTo_iff.mp hEdge
      exact ⟨1, true, lastEdgeTo_sharedChild, .root (.tail _ (.head _)), _, rfl, rfl⟩

end Forest

namespace Graph

/-- The graph of the forest with a shared child and its edge indicator. -/
def sharedChild : Graph where
  nodes := #[.input 2, .forest (Selection.ofOutput ⟨0, 0⟩ 2) Forest.sharedChild]
  outputs := [("edgeIndicatorVector", Selection.ofOutput ⟨1, 2⟩ 6)]

theorem built_sharedChild : sharedChild.Built := by
  have hInput : Built ⟨#[.input 2], []⟩ := @Built.add _ _ (.input 2) 0 .empty rfl rfl
  have hForest := @Built.add _ _ (.forest (Selection.ofOutput ⟨0, 0⟩ 2) Forest.sharedChild) 1
    hInput rfl rfl
  exact @Built.addOutput _ _ "edgeIndicatorVector" (Selection.ofOutput ⟨1, 2⟩ 6) hForest rfl

/-- Without the check, the forest with a shared child is expanded. -/
theorem exists_expand_sharedChild :
    ∃ result after, Succeeds (Rebuild.expand sharedChild) (start ⟨10, false⟩) result after := by
  refine built_sharedChild.sound.exists_expand fun node hMem => ?_
  rintro input ensemble rfl
  simp only [sharedChild, List.mem_cons, List.not_mem_nil, or_false] at hMem
  rcases hMem with hMem | hMem
  · cases hMem
  · cases hMem
    exact ⟨fun hChecked => (by cases hChecked), Forest.expandable_sharedChild, by decide⟩

/-- The features of the forest are read faithfully. -/
theorem faithful_sharedChild (known : Evaluation) :
    ∀ element ∈ Selection.ofOutput ⟨0, 0⟩ 2,
      Faithful sharedChild.nodes.toList known element.output := by
  intro element hElement
  rw [(Selection.mem_ofOutput_iff.mp hElement).1]
  refine .intro (rfl : _ = some (Node.input 2)) (fun input hInput => by cases hInput)
    fun hPort => ?_
  cases hPort

/-- The direct evaluation marks the edge below the shared child, and the expanded graph
does not. -/
theorem expand_sharedChild_ne :
    sharedChild.Built ∧ ∃ result after,
      Succeeds (Rebuild.expand sharedChild) (start ⟨10, false⟩) result after ∧
      (Forest.sharedChild.evaluate [1, -1]).map Outcome.edgeIndicator =
        .ok [false, true, true, false, false, true] ∧
      sharedChild.computeOutput [1, -1] "edgeIndicatorVector" =
        .ok ([false, true, true, false, false, true].map .boolean) ∧
      result.computeOutput [1, -1] "edgeIndicatorVector" ≠
        .ok ([false, true, true, false, false, true].map .boolean) := by
  obtain ⟨result, after, hExpand⟩ := exists_expand_sharedChild
  have hSound := built_sharedChild.sound
  have hNodes : sharedChild.nodes.toList =
      [.input 2] ++ .forest (Selection.ofOutput ⟨0, 0⟩ 2) Forest.sharedChild :: [] := rfl
  have hTyped := hSound.typed
  rw [hNodes] at hTyped
  have hNumbers : Reads [.input 2] [1, -1] (Selection.ofOutput ⟨0, 0⟩ 2) ([1, -1].map .real) :=
    ⟨hTyped.of_append, _, rfl, rfl⟩
  have hMarks : (Forest.sharedChild.evaluate [1, -1]).map Outcome.edgeIndicator =
      .ok [false, true, true, false, false, true] := rfl
  obtain ⟨outcome, hOutcome⟩ : ∃ outcome, Forest.sharedChild.evaluate [1, -1] = .ok outcome :=
    ⟨_, rfl⟩
  obtain ⟨flags, hFlags, hSame⟩ := (hSound.of_expand hExpand).exists_flags hSound hNodes rfl
    (faithful_sharedChild _) (.head _) hNumbers hOutcome
  refine ⟨built_sharedChild, result, after, hExpand, hMarks, rfl, fun hAgrees => ?_⟩
  rw [hOutcome] at hMarks
  have hIndicator : outcome.edgeIndicator = [false, true, true, false, false, true] :=
    Except.ok.inj hMarks
  rw [hFlags, ← hIndicator] at hAgrees
  have hEqual : flags = outcome.edgeIndicator :=
    List.map_injective_iff.mpr (fun _ _ h => Value.boolean.inj h) (Except.ok.inj hAgrees)
  exact Forest.not_entersLast_sharedChild (hSame.mp hEqual)

/-- An input that goes through the second root finds the indicators in agreement. -/
theorem Built.expand_edgeIndicator_iff_sharedChild :
    sharedChild.Built ∧ ∃ result after known,
      Succeeds (Rebuild.expand sharedChild) (start ⟨10, false⟩) result after ∧
      sharedChild.evaluate [-1, 1] = .ok known ∧
      sharedChild.nodes[1]? =
        some (.forest (Selection.ofOutput ⟨0, 0⟩ 2) Forest.sharedChild) ∧
      (∀ element ∈ Selection.ofOutput ⟨0, 0⟩ 2,
        Faithful sharedChild.nodes.toList known element.output) ∧
      sharedChild.output? "edgeIndicatorVector" = some (Selection.ofOutput ⟨1, 2⟩ 6) ∧
      ∃ outcome, Forest.sharedChild.evaluate [-1, 1] = .ok outcome ∧
        result.computeOutput [-1, 1] "edgeIndicatorVector" =
          .ok (outcome.edgeIndicator.map .boolean) := by
  obtain ⟨result, after, hExpand⟩ := exists_expand_sharedChild
  obtain ⟨known, hKnown⟩ : ∃ known, sharedChild.evaluate [-1, 1] = .ok known := ⟨_, rfl⟩
  obtain ⟨numbers, outcome, hNumbers, hOutcome, _, hIff, _⟩ := Built.expand_edgeIndicator_iff
    built_sharedChild hExpand hKnown (rfl : sharedChild.nodes[1]? = _) (faithful_sharedChild known)
    (rfl : sharedChild.output? "edgeIndicatorVector" = _)
  have hInput : known.readReals (Selection.ofOutput ⟨0, 0⟩ 2) = .ok [-1, 1] := by
    cases hKnown
    rfl
  rw [hInput] at hNumbers
  cases hNumbers
  exact ⟨built_sharedChild, result, after, known, hExpand, hKnown, rfl, faithful_sharedChild known,
    rfl, outcome, hOutcome, hIff.mpr Forest.entersLast_sharedChild⟩

end Graph

end ForestGraph
