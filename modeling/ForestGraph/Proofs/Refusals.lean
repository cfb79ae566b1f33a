import ForestGraph.Proofs.Passes

/-!
# Refused forests

How a rebuild fails.  The subtrees of a forest are emitted first, and with enough
features the only thing that can go wrong there is an edge that does not lead to a
later node.  So a forest with such an edge is refused for this reason, whatever else
is wrong with it, and the failure ends the pass and the whole expansion.
-/

namespace ForestGraph.Rebuild

/-- A step fails in a state with an error, and leaves another state behind. -/
def Fails {α : Type} (step : RebuildM α) (before : Rebuild) (error : Error) (after : Rebuild) :
    Prop :=
  (ExceptT.run step).run before = (.error error, after)

variable {α β : Type} {before after : Rebuild} {error : Error}

theorem succeeds_or_fails (step : RebuildM α) (before : Rebuild) :
    (∃ value after, Succeeds step before value after) ∨
      ∃ error after, Fails step before error after := by
  cases hRun : (ExceptT.run step).run before with
  | mk outcome after =>
      cases outcome with
      | ok value => exact .inl ⟨value, after, hRun⟩
      | error error => exact .inr ⟨error, after, hRun⟩

/-- A step that succeeds does not fail. -/
theorem Succeeds.not_fails {step : RebuildM α} {value : α} {state : Rebuild}
    (h : Succeeds step before value after) : ¬ Fails step before error state := by
  intro hFails
  unfold Succeeds at h
  unfold Fails at hFails
  rw [h] at hFails
  injection hFails with hValue
  cases hValue

theorem not_fails_pure {value : α} : ¬ Fails (pure value) before error after :=
  Succeeds.not_fails (succeeds_pure_iff.mpr ⟨rfl, rfl⟩)

@[simp] theorem fails_throw_iff {thrown : Error} :
    Fails (throw thrown : RebuildM α) before error after ↔ error = thrown ∧ after = before := by
  constructor
  · intro h
    injection h with hValue hState
    injection hValue with hError
    exact ⟨hError.symm, hState.symm⟩
  · rintro ⟨rfl, rfl⟩
    rfl

/-- Of two steps, the first fails or the second does behind it. -/
theorem fails_bind_iff {step : RebuildM α} {rest : α → RebuildM β} :
    Fails (step >>= rest) before error after ↔ Fails step before error after ∨
      ∃ value middle, Succeeds step before value middle ∧
        Fails (rest value) middle error after := by
  unfold Fails Succeeds
  rw [ExceptT.run_bind, StateT.run_bind]
  cases hStep : (ExceptT.run step).run before with
  | mk outcome middle =>
      cases outcome with
      | error thrown =>
          -- The error is the same, but one of a step with another result.
          constructor
          · intro h
            injection h with hValue hState
            injection hValue with hError
            subst hError hState
            exact .inl rfl
          · rintro (h | ⟨value, state, hValue, _⟩)
            · injection h with hValue hState
              injection hValue with hError
              subst hError hState
              rfl
            · injection hValue with hValue _
              cases hValue
      | ok value =>
          constructor
          · exact fun h => .inr ⟨value, middle, rfl, h⟩
          · rintro (h | ⟨other, state, hValue, h⟩)
            · injection h with hValue _
              cases hValue
            · injection hValue with hValue hState
              injection hValue with hValue
              subst hValue hState
              exact h

/-- A failure ends the steps that were to follow. -/
theorem Fails.bind {step : RebuildM α} (h : Fails step before error after)
    (rest : α → RebuildM β) : Fails (step >>= rest) before error after :=
  fails_bind_iff.mpr (.inl h)

theorem Succeeds.bind_fails {step : RebuildM α} {rest : α → RebuildM β} {value : α}
    {middle : Rebuild} (hStep : Succeeds step before value middle)
    (hRest : Fails (rest value) middle error after) : Fails (step >>= rest) before error after :=
  fails_bind_iff.mpr (.inr ⟨value, middle, hStep, hRest⟩)

/-- Behind a step that succeeds, only the rest can fail. -/
theorem Succeeds.of_bind_fails {step : RebuildM α} {rest : α → RebuildM β} {value : α}
    {middle : Rebuild} (hStep : Succeeds step before value middle)
    (h : Fails (step >>= rest) before error after) : Fails (rest value) middle error after := by
  rcases fails_bind_iff.mp h with hFirst | ⟨other, state, hOther, hRest⟩
  · exact absurd hFirst hStep.not_fails
  · obtain ⟨rfl, rfl⟩ := hStep.unique hOther
    exact hRest

@[simp] theorem fails_part_iff {selection : Except Error Selection} :
    Fails (part selection) before error after ↔ selection = .error error ∧ after = before := by
  cases selection with
  | ok selection =>
      refine ⟨fun h => absurd h not_fails_pure, ?_⟩
      rintro ⟨hError, _⟩
      cases hError
  | error thrown =>
      simp only [part, fails_throw_iff, Except.error.injEq, eq_comm]

end ForestGraph.Rebuild

namespace ForestGraph

open Rebuild

variable {before after : Rebuild} {error : Error}

namespace Subtree

variable {forest : Forest} {base : List Node} {features : Selection} {later : List Subtree}

/-- A child without a subtree breaks an invariant. -/
theorem category_of_valueAt {count parent child : Nat}
    (h : valueAt later count parent child = .error error) :
    error.category = .invariantViolation := by
  unfold valueAt at h
  by_cases hEarlier : child ≤ parent
  · rw [if_pos hEarlier] at h
    cases h
    rfl
  · rw [if_neg hEarlier] at h
    cases hSubtree : later[child - (parent + 1)]? with
    | some subtree => simp [hSubtree] at h
    | none =>
        rw [hSubtree] at h
        cases h
        rfl

/-- With enough features, an edge is refused for its child only. -/
theorem category_of_emitEdge {count parent : Nat} {edge : Edge}
    (hLater : ∀ offset subtree, later[offset]? = some subtree →
      Denotes forest base features before (parent + 1 + offset) subtree)
    (hType : Selection.HasType before.emitted .real features)
    (hCovers : Covers features.length edge.predictor.lastFeature?)
    (h : Fails (emitEdge features count parent later edge) before error after) :
    error.category = .invariantViolation := by
  obtain ⟨prediction, state, hPrediction⟩ := exists_emit_predictor hType hCovers
  have hEmits := hPrediction.predictor.2.1
  unfold emitEdge at h
  have hRest := hPrediction.of_bind_fails h
  cases hTarget : edge.target with
  | leaf =>
      rw [hTarget] at hRest
      exact absurd hRest not_fails_pure
  | interior child =>
      rw [hTarget] at hRest
      rcases fails_bind_iff.mp hRest with hValue | ⟨below, middle, hBelow, hSum⟩
      · exact category_of_valueAt (fails_part_iff.mp hValue).1
      -- The values of both are numbers, so they can be added.
      · obtain ⟨hValueAt, rfl⟩ := succeeds_part_iff.mp hBelow
        obtain ⟨_, subtree, hSubtree, rfl⟩ := valueAt_eq_ok_iff.mp hValueAt
        have hBelowType := hEmits.grows.nodes.hasType (hLater _ _ hSubtree).valueType
        obtain ⟨_, _, hSumSucceeds⟩ :=
          exists_emit_sum (Selection.hasType_append_iff.mpr ⟨hEmits.hasType, hBelowType⟩)
        exact absurd hSum hSumSucceeds.not_fails

/-- With enough features, the emission of the subtrees fails for some child only. -/
theorem category_of_emitAll (hType : Selection.HasType before.emitted .real features)
    (hReads : forest.ReadsBelow features.length) {index : Nat}
    {behind : List Interior} (hBehind : forest.nodes.toList.drop index = behind)
    (h : Fails (emitAll features forest.nodeCount index behind) before error after) :
    error.category = .invariantViolation := by
  induction behind generalizing index with
  | nil => exact absurd h not_fails_pure
  | cons node behind ih =>
      obtain ⟨hNode, hRest⟩ := node_of_drop hBehind
      have hSuffices := Forest.readsBelow_iff.mp hReads index node hNode
      unfold emitAll at h
      rcases fails_bind_iff.mp h with hBelow | ⟨below, state, hBelow, h⟩
      · exact ih hRest hBelow
      have hAll := of_emitAll hRest hBelow
      have hStateType := hAll.grows.nodes.hasType hType
      rcases fails_bind_iff.mp h with hFalse | ⟨onFalse, state1, hFalse, h⟩
      · exact category_of_emitEdge hAll.denotes hStateType (hSuffices.predictor false) hFalse
      obtain ⟨_, _, hFalseGrows, hFalseEdge⟩ :=
        of_emitEdge hAll.denotes hAll.grows.nodes hFalse
      have hDenotes : ∀ offset subtree, below[offset]? = some subtree →
          Denotes forest before.emitted features state1 (index + 1 + offset) subtree :=
        fun offset subtree hSubtree => (hAll.denotes offset subtree hSubtree).grow hFalseGrows
      have hFalseType := hFalseGrows.nodes.hasType hStateType
      rcases fails_bind_iff.mp h with hTrue | ⟨onTrue, state2, hTrue, h⟩
      · exact category_of_emitEdge hDenotes hFalseType (hSuffices.predictor true) hTrue
      obtain ⟨_, _, hTrueGrows, hTrueEdge⟩ :=
        of_emitEdge hDenotes (hAll.grows.trans hFalseGrows).nodes hTrue
      -- Behind the edges nothing is left that could fail.
      obtain ⟨decision, state3, hDecision⟩ :=
        exists_emit_rule (hTrueGrows.nodes.hasType hFalseType) hSuffices.rule
      have hRuleEmits := hDecision.rule.2.1
      have hFalseLast := hFalseEdge.grow (hTrueGrows.trans hRuleEmits.grows)
      have hTrueLast := hTrueEdge.grow hRuleEmits.grows
      obtain ⟨value, state4, hValue⟩ := exists_emit_select hFalseLast.hasType hTrueLast.hasType
        (hTrueLast.size.trans hFalseLast.size.symm) hRuleEmits.hasType hRuleEmits.length
      exact absurd (hValue.of_bind_fails (hDecision.of_bind_fails h)) not_fails_pure

end Subtree

/-- A forest with an edge that does not descend is refused for such an edge. -/
theorem Forest.exists_fails_expandUnchecked {forest : Forest} (old : Nat)
    {input features : Selection}
    (hFeatures : Follows before.links input features)
    (hType : Selection.HasType before.emitted .real features)
    (hReads : forest.ReadsBelow features.length) (hAscends : ¬ forest.Descends) :
    ∃ error after, Fails (forest.expandUnchecked old input) before error after ∧
      error.category = .invariantViolation := by
  have hFollow : Succeeds (follow input) before features before :=
    succeeds_follow_iff.mpr ⟨hFeatures, rfl⟩
  rcases succeeds_or_fails (Subtree.emitAll features forest.nodeCount 0 forest.nodes.toList)
    before with ⟨subtrees, state, hSubtrees⟩ | ⟨error, state, hSubtrees⟩
  · have hAll : Subtree.AllDenote forest features before state 0 subtrees :=
      Subtree.of_emitAll List.drop_zero hSubtrees
    have hDescends : forest.Descends := fun hEdge => hAll.descends (Nat.zero_le _) hEdge
    exact (hAscends hDescends).elim
  · refine ⟨error, state, hFollow.bind_fails (hSubtrees.bind _), ?_⟩
    exact Subtree.category_of_emitAll hType hReads List.drop_zero hSubtrees

/-- A forest is refused for its shape if it is checked and found wrong. -/
theorem Forest.fails_requireShape_iff {forest : Forest} :
    Fails forest.requireShape before error after ↔
      before.options.checkForests = true ∧ forest.validate = .error error ∧ after = before := by
  have hGet {rest : Rebuild → RebuildM Unit} :
      Fails (get >>= rest) before error after ↔ Fails (rest before) before error after := by
    have hState : Succeeds (get : RebuildM Rebuild) before before before :=
      succeeds_get_iff.mpr ⟨rfl, rfl⟩
    exact ⟨fun h => hState.of_bind_fails h, fun h => hState.bind_fails h⟩
  unfold Forest.requireShape
  rw [hGet]
  cases hCheck : before.options.checkForests with
  | false => simp [not_fails_pure]
  | true =>
      cases hValidate : forest.validate with
      | ok shape => simp [not_fails_pure]
      | error cause => simp [eq_comm]

/-! ## Failing passes -/

section Pass

variable {nodes later : List Node} {node : Node} {old : Graph} {changed : Bool}

/-- A forest that is not checked is refused for an edge that does not descend. -/
theorem Linked.exists_fails_expandNode (hLinked : Linked nodes before) {input : Selection}
    {ensemble : Forest} (hTyped : (Node.forest input ensemble).WellTyped nodes)
    (hReads : ensemble.ReadsBelow input.length)
    (hUnchecked : before.options.checkForests = false) (hAscends : ¬ ensemble.Descends) :
    ∃ error after, Fails (expandNode nodes.length (.forest input ensemble)) before error after ∧
      error.category = .invariantViolation := by
  have hInput := hTyped.inputs ⟨"input", input, .real⟩ (by simp [Node.inputs])
  obtain ⟨hFollows, hType⟩ := hLinked.follows hInput
  rw [hFollows.length_eq] at hReads
  have hShape : Succeeds ensemble.requireShape before () before := by
    refine Forest.succeeds_requireShape_iff.mpr ⟨fun hChecked => ?_, rfl⟩
    rw [hUnchecked] at hChecked
    cases hChecked
  obtain ⟨error, after, hFails, hCategory⟩ :=
    Forest.exists_fails_expandUnchecked nodes.length hFollows hType hReads hAscends
  exact ⟨error, after, (hShape.bind_fails hFails).bind _, hCategory⟩

/-- A forest that is checked and found wrong is refused before anything is emitted. -/
theorem fails_expandNode_of_invalid {ensemble : Forest} (index : Nat) (input : Selection)
    (hChecks : before.options.checkForests = true) (hInvalid : ensemble.validate = .error error) :
    Fails (expandNode index (.forest input ensemble)) before error before :=
  ((Forest.fails_requireShape_iff.mpr ⟨hChecks, hInvalid, rfl⟩).bind _).bind _

/-- A node that cannot be rebuilt ends the rebuild behind the nodes before it. -/
theorem fails_rebuildNodes {step : Nat → Node → RebuildM Bool} {first : List Node}
    {index : Nat} {middle : Rebuild}
    (hFirst : Succeeds (rebuildNodes step index first) before changed middle)
    (hNode : Fails (step (index + first.length) node) middle error after) :
    Fails (rebuildNodes step index (first ++ node :: later)) before error after := by
  induction first generalizing index before changed with
  | nil =>
      obtain ⟨_, rfl⟩ := succeeds_pure_iff.mp hFirst
      exact hNode.bind _
  | cons head first ih =>
      obtain ⟨one, state, hStep, hRest⟩ := succeeds_bind_iff.mp hFirst
      obtain ⟨others, last, hLater, hDone⟩ := succeeds_bind_iff.mp hRest
      obtain ⟨_, rfl⟩ := succeeds_pure_iff.mp hDone
      rw [List.length_cons, ← Nat.add_assoc, Nat.add_right_comm] at hNode
      exact hStep.bind_fails ((ih hLater hNode).bind _)

/-- What ends the rebuild of the nodes ends the expansion. -/
theorem fails_expand
    (h : Fails (rebuildNodes expandNode 0 old.nodes.toList) (start before.options) error after) :
    Fails (Rebuild.expand old) before error after := by
  have hStart : Succeeds (modify fun state => start state.options) before ()
      (start before.options) := succeeds_modify_iff.mpr rfl
  exact (hStart.bind_fails (h.bind _)).bind _

end Pass

end ForestGraph
