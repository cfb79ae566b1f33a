import Std.Data.HashMap.Lemmas
import ForestGraph.Proofs.WiredEdges

/-!
# Expanded forests

When the expansion of a forest node succeeds, and what the elements that it
links are read as: the output and the tree outputs of the evaluation, and for
every edge whether its node is gated and decides for it.
-/

namespace ForestGraph.Forest

open Rebuild

variable {forest : Forest} {old : Nat} {input features : Selection} {before after : Rebuild}

theorem succeeds_requireShape_iff {done : Unit} :
    Succeeds forest.requireShape before done after ↔
      (before.options.checkForests = true → forest.validate = .ok ()) ∧ after = before := by
  have hGet : ∀ {rest : Rebuild → RebuildM Unit},
      Succeeds (get >>= rest) before done after ↔ Succeeds (rest before) before done after := by
    intro rest
    constructor
    · intro h
      obtain ⟨state, middle, hState, hRest⟩ := succeeds_bind_iff.mp h
      obtain ⟨rfl, rfl⟩ := succeeds_get_iff.mp hState
      exact hRest
    · intro h
      exact Succeeds.bind (succeeds_get_iff.mpr ⟨rfl, rfl⟩) h
  unfold requireShape
  rw [hGet]
  cases hCheck : before.options.checkForests with
  | false => simp
  | true =>
      cases hValidate : forest.validate with
      | ok shape => simp
      | error error => simp

/-- The emitted values of the trees, if every root has a subtree. -/
theorem treeValues_eq_ok_iff {subtrees : List Subtree} {trees : Selection} :
    forest.treeValues subtrees = .ok trees ↔
      ∃ parts, List.Forall₂ (fun root part => ∃ subtree, subtrees[root]? = some subtree ∧
        part = subtree.value) forest.roots parts ∧ trees = parts.flatten := by
  simp only [treeValues, except_bind_eq_ok_iff, mapM_eq_ok_iff, except_pure_eq_ok_iff]
  refine exists_congr fun parts => and_congr ?_ eq_comm
  -- The positions of the trees only occur in the message of a failure.
  have hRoots : forest.roots = forest.roots.zipIdx.map Prod.fst := by simp
  conv_rhs => rw [hRoots, List.forall₂_map_left_iff]
  constructor
  · refine fun h => h.imp fun pair part hPart => ?_
    cases hSubtree : subtrees[pair.1]? with
    | none => simp [hSubtree] at hPart
    | some subtree => exact ⟨subtree, rfl, by simpa [hSubtree, eq_comm] using hPart⟩
  · refine fun h => h.imp fun pair part hPart => ?_
    obtain ⟨subtree, hSubtree, rfl⟩ := hPart
    simp [hSubtree]

/-- The emitted values of all trees of a forest. -/
structure TreesDenote (forest : Forest) (base : List Node) (features : Selection)
    (state : Rebuild) (trees : Selection) : Prop where
  hasType : Selection.HasType state.emitted .real trees
  size : trees.length = forest.treeCount
  reads : ∀ {vector numbers : List Float}, Reads base vector features (numbers.map .real) →
    ∃ walks, List.Forall₂ (forest.Walk numbers) forest.roots walks ∧
      Reads state.emitted vector trees ((walks.map visitsValue).map .real)

/-- The values of the trees are the values of the subtrees at the roots. -/
theorem treesDenote_of_treeValues {state : Rebuild} {subtrees : List Subtree}
    {trees : Selection} (h : Subtree.AllDenote forest features before state 0 subtrees)
    (hTrees : forest.treeValues subtrees = .ok trees) :
    TreesDenote forest before.emitted features state trees := by
  obtain ⟨parts, hParts, rfl⟩ := treeValues_eq_ok_iff.mp hTrees
  have hDenotes : List.Forall₂ (fun root part => ∃ subtree : Subtree, part = subtree.value ∧
      Subtree.Denotes forest before.emitted features state root subtree) forest.roots parts := by
    refine hParts.imp fun root part hPart => ?_
    obtain ⟨subtree, hSubtree, rfl⟩ := hPart
    have hRoot := h.denotes root subtree hSubtree
    rw [Nat.zero_add] at hRoot
    exact ⟨subtree, rfl, hRoot⟩
  have hPart : ∀ part ∈ parts, Selection.HasType state.emitted .real part ∧
      part.length = 1 := by
    intro part hMem
    obtain ⟨position, hPosition⟩ := List.mem_iff_getElem?.mp hMem
    obtain ⟨_, _, subtree, rfl, hRoot⟩ := forall₂_getElem?_right hDenotes hPosition
    exact ⟨hRoot.valueType, hRoot.valueSize⟩
  refine ⟨Selection.hasType_flatten fun part hMem => (hPart part hMem).1, ?_,
    fun {vector numbers} hFeatures => ?_⟩
  · rw [Selection.length_flatten_of_singles fun part hMem => (hPart part hMem).2,
      ← hDenotes.length_eq]
    rfl
  · have hValues : List.Forall₂ (fun root part => ∃ visits, forest.Walk numbers root visits ∧
        Reads state.emitted vector part [.real (visitsValue visits)]) forest.roots parts := by
      refine hDenotes.imp fun root part hRoot => ?_
      obtain ⟨subtree, rfl, hSubtree⟩ := hRoot
      obtain ⟨visits, _, hWalk, hValue, _, _⟩ := hSubtree.reads hFeatures
      exact ⟨visits, hWalk, hValue⟩
    have hState := h.grows.nodes.evaluates hFeatures.evaluates
    obtain ⟨walks, hWalks, hRead⟩ :=
      Reads.flatten (fun visits => Value.real (visitsValue visits)) hState hValues
    refine ⟨walks, hWalks, ?_⟩
    rw [List.map_map]
    exact hRead

/-- Every root of an expandable forest has a subtree. -/
theorem exists_treeValues {state : Rebuild} {subtrees : List Subtree}
    (h : Subtree.AllDenote forest features before state 0 subtrees)
    (hRooted : ∀ root ∈ forest.roots, root < forest.nodeCount) :
    ∃ trees, forest.treeValues subtrees = .ok trees := by
  have hSubtree : ∀ root ∈ forest.roots, ∃ part, ∃ subtree : Subtree,
      subtrees[root]? = some subtree ∧ part = subtree.value := by
    intro root hRoot
    have hBound := hRooted root hRoot
    have hLength := h.length
    exact ⟨_, _, List.getElem?_eq_getElem (by omega), rfl⟩
  obtain ⟨parts, hParts⟩ := exists_forall₂ hSubtree
  exact ⟨parts.flatten, treeValues_eq_ok_iff.mpr ⟨parts, hParts, rfl⟩⟩

/-! ## The expansion of a forest node -/

/-- The graph grew by the expansion of a forest, and the ports of the old node are
linked to three selections that denote what the forest computes. -/
structure Expanded (forest : Forest) (old : Nat) (features : Selection)
    (before after : Rebuild) (output trees edges : Selection) : Prop where
  options : after.options = before.options
  outputs : after.graph.outputs = before.graph.outputs
  nodes : Extends before.emitted after.emitted
  links : after.links = ((before.links.insert ⟨old, 0⟩ output).insert ⟨old, 1⟩ trees).insert
    ⟨old, 2⟩ edges
  outputType : Selection.HasType after.emitted .real output
  outputSize : output.length = 1
  treesType : Selection.HasType after.emitted .real trees
  treesSize : trees.length = forest.treeCount
  edgesType : Selection.HasType after.emitted .boolean edges
  edgesSize : edges.length = forest.edgeCount
  reads : ∀ {vector numbers : List Float},
    Reads before.emitted vector features (numbers.map .real) →
    ∃ walks flags, forest.Walked numbers walks ∧ forest.GateFlags numbers flags ∧
      Reads after.emitted vector output [.real (forest.outcomeOf walks).output] ∧
      Reads after.emitted vector trees ((forest.outcomeOf walks).treeOutputs.map .real) ∧
      Reads after.emitted vector edges (flags.map .boolean)

/-- The three ports of the old node are linked. -/
theorem Expanded.linked {output trees edges : Selection}
    (h : forest.Expanded old features before after output trees edges) :
    after.links[(⟨old, 0⟩ : OutputRef)]? = some output ∧
      after.links[(⟨old, 1⟩ : OutputRef)]? = some trees ∧
      after.links[(⟨old, 2⟩ : OutputRef)]? = some edges := by
  rw [h.links]
  simp only [Std.HashMap.getElem?_insert, beq_iff_eq, OutputRef.mk.injEq, true_and]
  exact ⟨rfl, rfl, rfl⟩

/-- The nodes of a forest with their subtrees wait to be wired. -/
theorem waiting_of_allDenote {middle state : Rebuild} {subtrees : List Subtree}
    (h : Subtree.AllDenote forest features before middle 0 subtrees)
    (hGrows : Grows middle state) :
    Wiring.Waiting forest before.emitted features state 0
      (forest.nodes.toList.zip subtrees) := by
  intro offset node subtree hPair
  obtain ⟨hNode, hSubtree⟩ := List.getElem?_zip_eq_some.mp hPair
  rw [Array.getElem?_toList] at hNode
  rw [Nat.zero_add]
  have hDenotes := h.denotes offset subtree hSubtree
  rw [Nat.zero_add] at hDenotes
  exact ⟨hNode, hDenotes.grow hGrows⟩

/-- The sum of the trees and the bias is read as the output of the evaluation. -/
theorem reads_output {middle : Rebuild} {vector : List Float} {walks : List (List Visit)}
    {trees bias output : Selection}
    (hTrees : Reads before.emitted vector trees ((walks.map visitsValue).map .real))
    (hBias : Succeeds (emitReals [forest.bias]) before bias middle)
    (hOutput : Succeeds (emit (.sum (trees ++ bias))) middle output after) :
    Reads after.emitted vector output [.real (forest.outcomeOf walks).output] := by
  obtain ⟨hBiasEmits, hBiasReads⟩ := hBias.reals
  have hTerms : Reads middle.emitted vector (trees ++ bias)
      ((walks.map visitsValue ++ [forest.bias]).map .real) := by
    rw [List.map_append]
    exact (hBiasEmits.grows.nodes.reads hTrees).append (hBiasReads hTrees.evaluates)
  exact hOutput.sum.2 hTerms

theorem length_zip_of_allDenote {state : Rebuild} {subtrees : List Subtree}
    (h : Subtree.AllDenote forest features before state 0 subtrees) :
    (forest.nodes.toList.zip subtrees).length = forest.nodeCount := by
  rw [List.length_zip, h.length, Array.length_toList]
  unfold nodeCount
  omega

/-- Only the roots of interior nodes have values. -/
theorem root_lt_of_treeValues {state : Rebuild} {subtrees : List Subtree} {trees : Selection}
    (h : Subtree.AllDenote forest features before state 0 subtrees)
    (hTrees : forest.treeValues subtrees = .ok trees) :
    ∀ root ∈ forest.roots, root < forest.nodeCount := by
  intro root hRoot
  obtain ⟨parts, hParts, _⟩ := treeValues_eq_ok_iff.mp hTrees
  obtain ⟨tree, hTree⟩ := List.mem_iff_getElem?.mp hRoot
  obtain ⟨_, _, subtree, hSubtree, _⟩ := forall₂_getElem?_left hParts hTree
  have hBound := (List.getElem?_eq_some_iff.mp hSubtree).1
  have hLength := h.length
  omega

/-- Only expandable forests are expanded whose inputs have every feature that is read,
and the expansion denotes what they compute. -/
theorem of_expandUnchecked {done : Unit}
    (h : Succeeds (forest.expandUnchecked old input) before done after) :
    (forest.Expandable ∧ forest.ReadsBelow input.length) ∧
      ∃ features, Follows before.links input features ∧ ∃ output trees edges,
        forest.Expanded old features before after output trees edges := by
  unfold expandUnchecked at h
  obtain ⟨features, state, hFollow, h⟩ := succeeds_bind_iff.mp h
  obtain ⟨subtrees, state1, hSubtrees, h⟩ := succeeds_bind_iff.mp h
  obtain ⟨trees, state2, hTrees, h⟩ := succeeds_bind_iff.mp h
  obtain ⟨bias, state3, hBias, h⟩ := succeeds_bind_iff.mp h
  obtain ⟨output, state4, hOutput, h⟩ := succeeds_bind_iff.mp h
  obtain ⟨wiring, state5, hWiring, h⟩ := succeeds_bind_iff.mp h
  obtain ⟨edges, state6, hEdges, h⟩ := succeeds_bind_iff.mp h
  obtain ⟨_, state7, hFirst, h⟩ := succeeds_bind_iff.mp h
  obtain ⟨_, state8, hSecond, hThird⟩ := succeeds_bind_iff.mp h
  rw [succeeds_link_iff] at hFirst hSecond hThird
  obtain ⟨hFeatures, hFollowed⟩ := succeeds_follow_iff.mp hFollow
  obtain ⟨hTreeValues, hValued⟩ := succeeds_part_iff.mp hTrees
  obtain ⟨hCollect, hCollected⟩ := succeeds_part_iff.mp hEdges
  subst state state2 state6
  have hAll : Subtree.AllDenote forest features before state1 0 subtrees :=
    Subtree.of_emitAll List.drop_zero hSubtrees
  have hTreesDenote := treesDenote_of_treeValues hAll hTreeValues
  have hOutputEmits := hOutput.sum.1
  have hSummed := hBias.reals.1.grows.trans hOutputEmits.grows
  have hDescends : forest.Descends := fun hEdge => hAll.descends (Nat.zero_le _) hEdge
  have hBase := (hAll.grows.trans hSummed).nodes
  obtain ⟨hWired, hRecorded, hEntered⟩ := Wiring.Recorded.of_emitAll
    (waiting_of_allDenote hAll hSummed) hDescends hBase Wiring.recorded_start hWiring
  obtain ⟨hIndicate, hNumbered⟩ := hRecorded.of_collect (hBase.trans hWired.nodes) hCollect
  rw [length_zip_of_allDenote hAll] at hEntered
  have hForest : forest.Expandable := by
    refine ⟨root_lt_of_treeValues hAll hTreeValues, hDescends, fun index hIndex => ?_, hNumbered⟩
    have hIndexEntered := hEntered index hIndex
    rwa [Nat.zero_add] at hIndexEntered
  have hReads : forest.ReadsBelow input.length := by
    rw [hFeatures.length_eq, readsBelow_iff]
    exact fun index node hNode => hAll.enough (Nat.zero_le index) hNode
  have hGrows := hAll.grows.trans (hSummed.trans hWired)
  -- Linking the ports adds no node, so all selections stay what they are.
  have hEmitted : after.emitted = state5.emitted := by
    rw [hThird, hSecond, hFirst]
    rfl
  refine ⟨⟨hForest, hReads⟩, features, hFeatures, output, trees, edges, ?_⟩
  refine ⟨?_, ?_, ?_, ?_, ?_, hOutputEmits.length, ?_, hTreesDenote.size, ?_, hIndicate.size,
    fun {vector numbers} hFeatures => ?_⟩
  · rw [hThird, hSecond, hFirst]
    exact hGrows.options
  · rw [hThird, hSecond, hFirst]
    exact hGrows.outputs
  · rw [hEmitted]
    exact hGrows.nodes
  · rw [hThird, hSecond, hFirst, ← hGrows.links]
    rfl
  · rw [hEmitted]
    exact hWired.nodes.hasType hOutputEmits.hasType
  · rw [hEmitted]
    exact (hSummed.trans hWired).nodes.hasType hTreesDenote.hasType
  · rw [hEmitted]
    exact hIndicate.hasType
  · rw [hEmitted]
    obtain ⟨walks, hWalks, hTreesRead⟩ := hTreesDenote.reads hFeatures
    obtain ⟨flags, hFlagsRead, hFlags⟩ := hIndicate.reads hFeatures
    exact ⟨walks, flags, hForest.walked hWalks, hFlags,
      hWired.nodes.reads (reads_output hTreesRead hBias hOutput),
      (hSummed.trans hWired).nodes.reads hTreesRead, hFlagsRead⟩

/-- Expandable forests are expanded if their input is linked to enough numbers. -/
theorem exists_expandUnchecked (hForest : forest.Expandable)
    (hFeatures : Follows before.links input features)
    (hType : Selection.HasType before.emitted .real features)
    (hReads : forest.ReadsBelow features.length) :
    ∃ after, Succeeds (forest.expandUnchecked old input) before () after := by
  have hFollow : Succeeds (follow input) before features before :=
    succeeds_follow_iff.mpr ⟨hFeatures, rfl⟩
  obtain ⟨subtrees, state1, hSubtrees⟩ := Subtree.exists_emitAll hForest.descends hType hReads
    (@List.drop_zero _ forest.nodes.toList)
  have hAll := Subtree.of_emitAll List.drop_zero hSubtrees
  obtain ⟨trees, hTrees⟩ := exists_treeValues hAll hForest.rooted
  have hTreesType := (treesDenote_of_treeValues hAll hTrees).hasType
  obtain ⟨bias, state2, hBias⟩ := exists_emit_constant state1 (.reals [forest.bias])
  have hBiasEmits := (Succeeds.reals hBias).1
  have hTerms : Selection.HasType state2.emitted .real (trees ++ bias) :=
    Selection.hasType_append_iff.mpr
      ⟨hBiasEmits.grows.nodes.hasType hTreesType, hBiasEmits.hasType⟩
  obtain ⟨output, state3, hOutput⟩ := exists_emit_sum hTerms
  have hSummed := hBiasEmits.grows.trans hOutput.sum.1.grows
  have hWaiting := waiting_of_allDenote hAll hSummed
  have hBase := (hAll.grows.trans hSummed).nodes
  obtain ⟨wiring, state4, hWiring⟩ := Wiring.Recorded.exists_emitAll hWaiting hForest hBase
    Wiring.recorded_start
  obtain ⟨hWired, hRecorded, _⟩ := Wiring.Recorded.of_emitAll hWaiting hForest.descends hBase
    Wiring.recorded_start hWiring
  rw [length_zip_of_allDenote hAll, Nat.zero_add] at hRecorded
  obtain ⟨edges, hEdges⟩ := hRecorded.exists_collect hForest.numbered
  have hLinks : ∃ after, Succeeds (do
      link ⟨old, ForestPort.output.index⟩ output
      link ⟨old, ForestPort.treeOutputs.index⟩ trees
      link ⟨old, ForestPort.edgeIndicator.index⟩ edges) state4 () after :=
    ⟨_, succeeds_bind_iff.mpr ⟨(), _, succeeds_link_iff.mpr rfl,
      succeeds_bind_iff.mpr ⟨(), _, succeeds_link_iff.mpr rfl, succeeds_link_iff.mpr rfl⟩⟩⟩
  obtain ⟨after, hLinks⟩ := hLinks
  exact ⟨after, hFollow.bind (hSubtrees.bind ((succeeds_part_iff.mpr ⟨hTrees, rfl⟩).bind
    (Succeeds.bind hBias (hOutput.bind (hWiring.bind
      ((succeeds_part_iff.mpr ⟨hEdges, rfl⟩).bind hLinks))))))⟩

end ForestGraph.Forest
