import ForestGraph.Expansion.Forest
import ForestGraph.Proofs.Parts
import ForestGraph.Proofs.Shape

/-!
# Emitted subtrees

The subtree of every node of a forest is emitted, also those that no input
reaches.  Whatever the input, an emitted subtree is read as the value of the walk
from its node, and its decision as the decision there.  The emission goes from the
last node to the first, so both the statement and its proof follow the list of
the nodes behind an index.
-/

namespace ForestGraph

open Rebuild

/-- The value that a walk has from a node on if it takes a given edge there. -/
def Forest.Contributes (forest : Forest) (input : List Float) (index : Nat) (edge : Edge)
    (value : Float) : Prop :=
  ∃ prediction, edge.predictor.predict input = .ok prediction ∧
    ((edge.target = .leaf ∧ value = prediction) ∨
      ∃ child visits, edge.target = .interior child ∧ index < child ∧
        forest.Walk input child visits ∧ value = sequentialSum [prediction, visitsValue visits])

/-- Following the edge that the rule decides for is walking. -/
theorem Forest.Contributes.walk {forest : Forest} {input : List Float} {index : Nat}
    {node : Interior} {decision : Bool} {value : Float}
    (h : forest.Contributes input index (node.edge decision) value)
    (hNode : forest.nodes[index]? = some node) (hRule : node.rule.holds input = .ok decision) :
    ∃ visits, forest.Walk input index visits ∧ visitsValue visits = value := by
  obtain ⟨prediction, hPrediction, h⟩ := h
  have hMakes : forest.Makes input
      ⟨index, decision, ⟨node.firstEdge + decision.toNat, prediction⟩⟩ node :=
    ⟨hNode, hRule, hPrediction, rfl⟩
  rcases h with ⟨hTarget, rfl⟩ | ⟨child, below, hTarget, hLater, hBelow, rfl⟩
  · exact ⟨_, .leaf hMakes hTarget, rfl⟩
  · refine ⟨_, .interior hMakes hTarget hLater hBelow, ?_⟩
    -- The walk below is not empty, so its value is added to the prediction.
    cases below with
    | nil => obtain ⟨visit, hVisit, _⟩ := hBelow.head; cases hVisit
    | cons visit below => rfl

/-- An emitted subtree is read as the walk from its node and the decision there,
for every vector that gives numbers to the features. -/
structure Subtree.Denotes (forest : Forest) (base : List Node) (features : Selection)
    (state : Rebuild) (index : Nat) (subtree : Subtree) : Prop where
  valueType : Selection.HasType state.emitted .real subtree.value
  valueSize : subtree.value.length = 1
  decisionType : Selection.HasType state.emitted .boolean subtree.decision
  decisionSize : subtree.decision.length = 1
  reads : ∀ {vector numbers : List Float}, Reads base vector features (numbers.map .real) →
    ∃ visits decision, forest.Walk numbers index visits ∧
      Reads state.emitted vector subtree.value [.real (visitsValue visits)] ∧
      forest.Decides numbers index decision ∧
      Reads state.emitted vector subtree.decision [.boolean decision]

namespace Subtree

variable {forest : Forest} {base : List Node} {features result : Selection}
  {before after : Rebuild} {later : List Subtree}

theorem Denotes.grow {index : Nat} {subtree : Subtree}
    (h : Denotes forest base features before index subtree) (hGrows : Grows before after) :
    Denotes forest base features after index subtree := by
  refine ⟨hGrows.nodes.hasType h.valueType, h.valueSize, hGrows.nodes.hasType h.decisionType,
    h.decisionSize, fun hFeatures => ?_⟩
  obtain ⟨visits, decision, hWalk, hValue, hDecides, hDecision⟩ := h.reads hFeatures
  exact ⟨visits, decision, hWalk, hGrows.nodes.reads hValue, hDecides,
    hGrows.nodes.reads hDecision⟩

/-- The value of a child is found among the subtrees behind its parent. -/
theorem valueAt_eq_ok_iff {count parent child : Nat} :
    valueAt later count parent child = .ok result ↔
      parent < child ∧ ∃ subtree, later[child - (parent + 1)]? = some subtree ∧
        result = subtree.value := by
  unfold valueAt
  by_cases hEarlier : child ≤ parent
  · have hNot : ¬ parent < child := by omega
    simp [hEarlier, hNot]
  · have hLater : parent < child := by omega
    cases later[child - (parent + 1)]? <;> simp [hEarlier, hLater, eq_comm]

/-- An emitted selection that is read as the contribution of an edge, for every vector
that gives numbers to the features. -/
structure DenotesEdge (forest : Forest) (base : List Node) (features : Selection)
    (state : Rebuild) (parent : Nat) (edge : Edge) (selection : Selection) : Prop where
  hasType : Selection.HasType state.emitted .real selection
  size : selection.length = 1
  reads : ∀ {vector numbers : List Float}, Reads base vector features (numbers.map .real) →
    ∃ value, forest.Contributes numbers parent edge value ∧
      Reads state.emitted vector selection [.real value]

theorem DenotesEdge.grow {parent : Nat} {edge : Edge}
    (h : DenotesEdge forest base features before parent edge result)
    (hGrows : Grows before after) :
    DenotesEdge forest base features after parent edge result := by
  refine ⟨hGrows.nodes.hasType h.hasType, h.size, fun hFeatures => ?_⟩
  obtain ⟨value, hContributes, hRead⟩ := h.reads hFeatures
  exact ⟨value, hContributes, hGrows.nodes.reads hRead⟩

/-- The contribution of an edge is read as the value of the walk along it. -/
theorem of_emitEdge {count parent : Nat} {edge : Edge}
    (hLater : ∀ offset subtree, later[offset]? = some subtree →
      Denotes forest base features before (parent + 1 + offset) subtree)
    (hBase : Extends base before.emitted)
    (h : Succeeds (emitEdge features count parent later edge) before result after) :
    Covers features.length edge.predictor.lastFeature? ∧
      (∀ child, edge.target = .interior child →
        parent < child ∧ child - (parent + 1) < later.length) ∧
      Grows before after ∧ DenotesEdge forest base features after parent edge result := by
  unfold emitEdge at h
  obtain ⟨prediction, state, hPrediction, h⟩ := succeeds_bind_iff.mp h
  obtain ⟨hCovers, hEmits, hReads⟩ := hPrediction.predictor
  refine ⟨hCovers, ?_⟩
  cases hTarget : edge.target with
  | leaf =>
      rw [hTarget] at h
      obtain ⟨rfl, rfl⟩ := succeeds_pure_iff.mp h
      refine ⟨fun child hChild => (by cases hChild), hEmits.grows, hEmits.hasType, hEmits.length,
        fun hFeatures => ?_⟩
      obtain ⟨value, hValue, hRead⟩ := hReads (hBase.reads hFeatures)
      exact ⟨value, ⟨value, hValue, .inl ⟨hTarget, rfl⟩⟩, hRead⟩
  | interior child =>
      rw [hTarget] at h
      obtain ⟨below, middle, hBelow, hSum⟩ := succeeds_bind_iff.mp h
      obtain ⟨hValueAt, rfl⟩ := succeeds_part_iff.mp hBelow
      obtain ⟨hChild, subtree, hSubtree, rfl⟩ := valueAt_eq_ok_iff.mp hValueAt
      have hIndex : parent + 1 + (child - (parent + 1)) = child := by omega
      have hDenotes := hLater _ subtree hSubtree
      rw [hIndex] at hDenotes
      obtain ⟨hSumEmits, hSumReads⟩ := hSum.sum
      refine ⟨fun other hOther => ?_, hEmits.grows.trans hSumEmits.grows, hSumEmits.hasType,
        hSumEmits.length, fun hFeatures => ?_⟩
      · obtain rfl := Target.interior.inj hOther
        exact ⟨hChild, (List.getElem?_eq_some_iff.mp hSubtree).1⟩
      · obtain ⟨value, hValue, hRead⟩ := hReads (hBase.reads hFeatures)
        obtain ⟨visits, _, hWalk, hBelowRead, _, _⟩ := hDenotes.reads hFeatures
        refine ⟨_, ⟨value, hValue, .inr ⟨child, visits, hTarget, hChild, hWalk, rfl⟩⟩, ?_⟩
        have hBoth := hRead.append (hEmits.grows.nodes.reads hBelowRead)
        exact hSumReads hBoth

/-- A subtree whose value selects between the contributions of both edges by the rule
of its node denotes the walks from there. -/
theorem denotes_of_select {index : Nat} {node : Interior} {onFalse onTrue decision : Selection}
    (hNode : forest.nodes[index]? = some node)
    (hFalse : DenotesEdge forest base features before index node.onFalse onFalse)
    (hTrue : DenotesEdge forest base features before index node.onTrue onTrue)
    (hDecisionType : Selection.HasType before.emitted .boolean decision)
    (hDecisionSize : decision.length = 1)
    (hDecision : ∀ {vector numbers : List Float}, Reads base vector features (numbers.map .real) →
      ∃ truth, node.rule.holds numbers = .ok truth ∧
        Reads before.emitted vector decision [.boolean truth])
    (hSelect : Succeeds (emit (.select onFalse onTrue decision)) before result after) :
    Denotes forest base features after index ⟨result, decision⟩ := by
  obtain ⟨hEmits, hReads⟩ := hSelect.select
  refine ⟨hEmits.hasType, hEmits.length.trans hFalse.size,
    hEmits.grows.nodes.hasType hDecisionType, hDecisionSize, fun {vector numbers} hFeatures => ?_⟩
  obtain ⟨truth, hTruth, hTruthRead⟩ := hDecision hFeatures
  have hChosen : ∃ value, forest.Contributes numbers index (node.edge truth) value ∧
      Reads before.emitted vector (if truth then onTrue else onFalse) [.real value] := by
    cases truth with
    | false => exact hFalse.reads hFeatures
    | true => exact hTrue.reads hFeatures
  obtain ⟨chosen, hContributes, hChosenRead⟩ := hChosen
  obtain ⟨visits, hWalk, rfl⟩ := hContributes.walk hNode hTruth
  exact ⟨visits, truth, hWalk, hReads hTruthRead hChosenRead, ⟨node, hNode, hTruth⟩,
    hEmits.grows.nodes.reads hTruthRead⟩

/-- The contribution of an edge can be emitted if its child has a subtree. -/
theorem exists_emitEdge (count : Nat) {parent : Nat} {edge : Edge}
    (hLater : ∀ offset subtree, later[offset]? = some subtree →
      Denotes forest base features before (parent + 1 + offset) subtree)
    (hType : Selection.HasType before.emitted .real features)
    (hCovers : Covers features.length edge.predictor.lastFeature?)
    (hTarget : ∀ child, edge.target = .interior child →
      parent < child ∧ child - (parent + 1) < later.length) :
    ∃ result after, Succeeds (emitEdge features count parent later edge) before result after := by
  obtain ⟨prediction, state, hPrediction⟩ := exists_emit_predictor hType hCovers
  have hEmits := hPrediction.predictor.2.1
  unfold emitEdge
  cases hCase : edge.target with
  | leaf => exact ⟨_, _, hPrediction.bind (succeeds_pure_iff.mpr ⟨rfl, rfl⟩)⟩
  | interior child =>
      obtain ⟨hChild, hBound⟩ := hTarget child hCase
      have hSubtree := List.getElem?_eq_getElem hBound
      have hValueAt : valueAt later count parent child =
          .ok later[child - (parent + 1)].value :=
        valueAt_eq_ok_iff.mpr ⟨hChild, _, hSubtree, rfl⟩
      have hBelowType := hEmits.grows.nodes.hasType (hLater _ _ hSubtree).valueType
      obtain ⟨sum, last, hSum⟩ :=
        exists_emit_sum (Selection.hasType_append_iff.mpr ⟨hEmits.hasType, hBelowType⟩)
      exact ⟨sum, last, hPrediction.bind
        (Succeeds.bind (succeeds_part_iff.mpr ⟨hValueAt, rfl⟩) hSum)⟩

/-- What the emission of the subtrees from an index on leaves behind. -/
structure AllDenote (forest : Forest) (features : Selection) (before after : Rebuild)
    (index : Nat) (subtrees : List Subtree) : Prop where
  grows : Grows before after
  length : subtrees.length = forest.nodeCount - index
  enough : ∀ {other : Nat} {node : Interior}, index ≤ other →
    forest.nodes[other]? = some node → node.Suffices features.length
  descends : ∀ {parent : Nat} {decision : Bool} {child : Nat}, index ≤ parent →
    forest.EdgeTo parent decision child → parent < child ∧ child < forest.nodeCount
  denotes : ∀ offset subtree, subtrees[offset]? = some subtree →
    Denotes forest before.emitted features after (index + offset) subtree

/-- The first of the nodes from an index on, and those behind it. -/
theorem node_of_drop {index : Nat} {node : Interior} {behind : List Interior}
    (h : forest.nodes.toList.drop index = node :: behind) :
    forest.nodes[index]? = some node ∧ forest.nodes.toList.drop (index + 1) = behind := by
  have hFirst : forest.nodes.toList[index + 0]? = some node := by
    rw [← List.getElem?_drop, h]
    rfl
  have hBehind : (forest.nodes.toList.drop index).tail = behind := by
    rw [h]
    rfl
  rw [List.tail_drop] at hBehind
  rw [Array.getElem?_toList] at hFirst
  exact ⟨hFirst, hBehind⟩

/-- There are no subtrees behind the last node. -/
theorem allDenote_nil {index : Nat} (hEnd : forest.nodeCount ≤ index) :
    AllDenote forest features before before index [] := by
  refine ⟨.refl _, by simp; omega, fun hOther hNode => ?_, fun hParent hEdge => ?_, by simp⟩
  · have hLt := (Array.getElem?_eq_some_iff.mp hNode).1
    unfold Forest.nodeCount at hEnd
    omega
  · have hLt := hEdge.lt_nodeCount
    omega

/-- The subtree of one more node, in front of those behind it. -/
theorem AllDenote.cons {index : Nat} {node : Interior} {middle : Rebuild} {subtree : Subtree}
    (h : AllDenote forest features before middle (index + 1) later) (hGrows : Grows middle after)
    (hNode : forest.nodes[index]? = some node) (hSuffices : node.Suffices features.length)
    (hTarget : ∀ decision child, (node.edge decision).target = .interior child →
      index < child ∧ child < forest.nodeCount)
    (hSubtree : Denotes forest before.emitted features after index subtree) :
    AllDenote forest features before after index (subtree :: later) := by
  refine ⟨h.grows.trans hGrows, ?_, fun {other same} hOther hSame => ?_,
    fun {parent choice child} hParent hEdge => ?_, ?_⟩
  · have hIndex := (Array.getElem?_eq_some_iff.mp hNode).1
    rw [List.length_cons, h.length]
    unfold Forest.nodeCount
    omega
  · rcases Nat.eq_or_lt_of_le hOther with rfl | hLess
    · rw [hNode] at hSame
      cases hSame
      exact hSuffices
    · exact h.enough hLess hSame
  · rcases Nat.eq_or_lt_of_le hParent with rfl | hLess
    · obtain ⟨same, hSame, hChild⟩ := hEdge
      rw [hNode] at hSame
      cases hSame
      exact hTarget choice child hChild
    · exact h.descends hLess hEdge
  · exact forall_getElem?_cons_iff.mpr ⟨hSubtree, fun offset other hOther =>
      (h.denotes offset other hOther).grow hGrows⟩

/-- The subtrees from an index on denote the walks and decisions at their nodes. -/
theorem of_emitAll {index : Nat} {behind : List Interior}
    (hBehind : forest.nodes.toList.drop index = behind)
    (h : Succeeds (emitAll features forest.nodeCount index behind) before later after) :
    AllDenote forest features before after index later := by
  -- By induction on the nodes behind, as the emission goes from the last node to the first.
  induction behind generalizing index later after with
  | nil =>
      obtain ⟨rfl, rfl⟩ := succeeds_pure_iff.mp h
      refine allDenote_nil ?_
      have hLength := congrArg List.length hBehind
      simp only [List.length_drop, Array.length_toList, List.length_nil] at hLength
      unfold Forest.nodeCount
      omega
  | cons node behind ih =>
      obtain ⟨hNode, hRest⟩ := node_of_drop hBehind
      unfold emitAll at h
      obtain ⟨below, state, hBelow, h⟩ := succeeds_bind_iff.mp h
      obtain ⟨onFalse, state1, hFalse, h⟩ := succeeds_bind_iff.mp h
      obtain ⟨onTrue, state2, hTrue, h⟩ := succeeds_bind_iff.mp h
      obtain ⟨decision, state3, hDecision, h⟩ := succeeds_bind_iff.mp h
      obtain ⟨value, state4, hValue, h⟩ := succeeds_bind_iff.mp h
      obtain ⟨rfl, rfl⟩ := succeeds_pure_iff.mp h
      have hAll := ih hRest hBelow
      obtain ⟨hFalseCovers, hFalseTarget, hFalseGrows, hFalseEdge⟩ :=
        of_emitEdge hAll.denotes hAll.grows.nodes hFalse
      have hDenotes : ∀ offset subtree, below[offset]? = some subtree →
          Denotes forest before.emitted features state1 (index + 1 + offset) subtree :=
        fun offset subtree hSubtree => (hAll.denotes offset subtree hSubtree).grow hFalseGrows
      obtain ⟨hTrueCovers, hTrueTarget, hTrueGrows, hTrueEdge⟩ :=
        of_emitEdge hDenotes (hAll.grows.trans hFalseGrows).nodes hTrue
      obtain ⟨hRuleCovers, hRuleEmits, hRuleReads⟩ := hDecision.rule
      have hBoth := hAll.grows.trans (hFalseGrows.trans hTrueGrows)
      have hSubtree : Denotes forest before.emitted features after index ⟨value, decision⟩ :=
        denotes_of_select hNode (hFalseEdge.grow (hTrueGrows.trans hRuleEmits.grows))
          (hTrueEdge.grow hRuleEmits.grows) hRuleEmits.hasType hRuleEmits.length
          (fun hFeatures => hRuleReads (hBoth.nodes.reads hFeatures)) hValue
      have hLater := hFalseGrows.trans
        (hTrueGrows.trans (hRuleEmits.grows.trans hValue.select.1.grows))
      refine hAll.cons hLater hNode ⟨hRuleCovers, fun decision => ?_⟩
        (fun decision child hChild => ?_) hSubtree
      · cases decision with
        | false => exact hFalseCovers
        | true => exact hTrueCovers
      · have hBound : index < child ∧ child - (index + 1) < below.length := by
          cases decision with
          | false => exact hFalseTarget child hChild
          | true => exact hTrueTarget child hChild
        -- The subtrees below are those of all nodes behind the index.
        have hLength := hAll.length
        omega

/-- All subtrees of a forest whose edges descend can be emitted for enough
features. -/
theorem exists_emitAll (hDescends : forest.Descends)
    (hType : Selection.HasType before.emitted .real features)
    (hReads : forest.ReadsBelow features.length) {index : Nat}
    {behind : List Interior} (hBehind : forest.nodes.toList.drop index = behind) :
    ∃ later after, Succeeds (emitAll features forest.nodeCount index behind) before later
      after := by
  induction behind generalizing index with
  | nil => exact ⟨[], before, succeeds_pure_iff.mpr ⟨rfl, rfl⟩⟩
  | cons node behind ih =>
      obtain ⟨hNode, hRest⟩ := node_of_drop hBehind
      have hSuffices := Forest.readsBelow_iff.mp hReads index node hNode
      obtain ⟨below, state, hBelow⟩ := ih hRest
      have hAll := of_emitAll hRest hBelow
      have hTarget : ∀ decision child, (node.edge decision).target = .interior child →
          index < child ∧ child - (index + 1) < below.length := by
        intro decision child hChild
        have hEdge := hDescends ⟨node, hNode, hChild⟩
        have hLength := hAll.length
        omega
      have hStateType := hAll.grows.nodes.hasType hType
      obtain ⟨onFalse, state1, hFalse⟩ := exists_emitEdge forest.nodeCount
        hAll.denotes hStateType (hSuffices.predictor false) (hTarget false)
      obtain ⟨_, _, hFalseGrows, hFalseEdge⟩ :=
        of_emitEdge hAll.denotes hAll.grows.nodes hFalse
      have hDenotes : ∀ offset subtree, below[offset]? = some subtree →
          Denotes forest before.emitted features state1 (index + 1 + offset) subtree :=
        fun offset subtree hSubtree => (hAll.denotes offset subtree hSubtree).grow hFalseGrows
      obtain ⟨onTrue, state2, hTrue⟩ := exists_emitEdge forest.nodeCount
        hDenotes (hFalseGrows.nodes.hasType hStateType) (hSuffices.predictor true) (hTarget true)
      obtain ⟨_, _, hTrueGrows, hTrueEdge⟩ :=
        of_emitEdge hDenotes (hAll.grows.trans hFalseGrows).nodes hTrue
      obtain ⟨decision, state3, hDecision⟩ := exists_emit_rule
        (hTrueGrows.nodes.hasType (hFalseGrows.nodes.hasType hStateType)) hSuffices.rule
      have hRuleEmits := hDecision.rule.2.1
      have hFalseLast := hFalseEdge.grow (hTrueGrows.trans hRuleEmits.grows)
      have hTrueLast := hTrueEdge.grow hRuleEmits.grows
      obtain ⟨value, state4, hValue⟩ := exists_emit_select hFalseLast.hasType hTrueLast.hasType
        (hTrueLast.size.trans hFalseLast.size.symm) hRuleEmits.hasType hRuleEmits.length
      exact ⟨_, _, hBelow.bind (hFalse.bind (hTrue.bind (hDecision.bind (hValue.bind
        (succeeds_pure_iff.mpr ⟨rfl, rfl⟩)))))⟩

end Subtree

end ForestGraph
