import ForestGraph.Proofs.Procedures
import ForestGraph.Proofs.Shape
import ForestGraph.Proofs.TypedEvaluation

/-!
# Walks through any data

Nothing is asked of the forest here: edges may lead backwards, to their own node, to a
shared node or nowhere, and roots and numbers of edges may be any.  A walk visits nodes of
ever greater index, so it ends before its steps are used up, and more steps would not
change how.  What can go wrong is one of six faults, each of which the input meets on its
way, and an evaluation fails exactly when there is one.
-/

namespace ForestGraph

open Procedure

variable {input : List Float}

/-! ## Missing features -/

theorem feature_eq_error_iff {index : Nat} {error : Error} :
    feature input index = .error error ↔
      input.length ≤ index ∧ error = .outOfBounds index input.length := by
  unfold feature
  cases hValue : input[index]? with
  | none => simp [List.getElem?_eq_none_iff.mp hValue, eq_comm]
  | some value =>
      have hIndex := (List.getElem?_eq_some_iff.mp hValue).1
      simp [Nat.not_le.mpr hIndex]

/-- A rule fails for want of the features that it reads. -/
theorem Rule.holds_eq_error_iff {rule : Rule} {error : Error} :
    rule.holds input = .error error ↔
      (∃ index bound, rule = .threshold index bound ∧ input.length ≤ index ∧
        error = .outOfBounds index input.length) ∨
      ∃ function : Affine, rule = .linear function ∧ input.length < function.width ∧
        error = .extent (.leadingFeatures function.width) input.length := by
  cases rule with
  | threshold index bound =>
      simp only [holds, except_bind_pure_eq_error_iff, feature_eq_error_iff, threshold.injEq,
        reduceCtorEq, false_and, exists_false, or_false]
      constructor
      · exact fun h => ⟨index, bound, ⟨rfl, rfl⟩, h⟩
      · rintro ⟨_, _, ⟨rfl, rfl⟩, h⟩
        exact h
  | linear function =>
      simp only [holds, except_bind_pure_eq_error_iff, Affine.apply_eq_error_iff, linear.injEq,
        reduceCtorEq, false_and, exists_false, false_or, exists_eq_left']

/-- And so does a predictor. -/
theorem Predictor.predict_eq_error_iff {predictor : Predictor} {error : Error} :
    predictor.predict input = .error error ↔
      ∃ function : Affine, predictor = .linear function ∧ input.length < function.width ∧
        error = .extent (.leadingFeatures function.width) input.length := by
  cases predictor with
  | constant value => simp [predict]
  | linear function =>
      simp only [predict, Affine.apply_eq_error_iff, linear.injEq, exists_eq_left']

namespace Forest

/-! ## The nodes on a walk -/

/-- A walk that keeps a log of the nodes that it visits. -/
def walkLogged (forest : Forest) (tree : Nat) (input : List Float) :
    Nat → Nat → Procedure (List Nat) (List Step)
  | 0, _ => throw (.endlessTree tree)
  | steps + 1, current => do
      let node ← ask fun _ => forest.node current
      modify fun visited => visited ++ [current]
      let decision ← ask fun _ => node.rule.holds input
      let edge := node.edge decision
      let prediction ← ask fun _ => edge.predictor.predict input
      let step : Step := ⟨node.firstEdge + decision.toNat, prediction⟩
      match edge.target with
      | .leaf => return [step]
      | .interior child =>
          if current < child then
            let below ← walkLogged forest tree input steps child
            return step :: below
          else throw (.childNotLater current child)

/-- How the walk of a tree runs from its root. -/
structure RunsThrough (forest : Forest) (tree : Nat) (input : List Float) (root : Nat)
    (visited : List Nat) : Prop where
  /-- The log tells the nodes of the walk and does not change how it ends. -/
  logged : effect (forest.walkLogged tree input (forest.nodeCount + 1) root) [] =
    (forest.walk tree input, visited)
  ascending : visited.Pairwise (· < ·)
  inside : ∀ index ∈ visited, index < forest.nodeCount
  few : visited.length ≤ forest.nodeCount
  /-- The walk ends in the same way under every larger budget of steps. -/
  unhurried : ∀ budget, forest.nodeCount < budget →
    forest.walkFrom tree input budget root = forest.walk tree input

/-- What the evaluation of a forest may find fault with, where the input leads it. -/
inductive Fault (forest : Forest) (input : List Float) : Error → Prop where
  | missingNode {index : Nat} : forest.Reached input index → forest.nodeCount ≤ index →
      Fault forest input (.outOfBounds index forest.nodeCount)
  | missingFeature {index feature : Nat} {bound : Float} {node : Interior} :
      forest.Reached input index → forest.nodes[index]? = some node →
      node.rule = .threshold feature bound → input.length ≤ feature →
      Fault forest input (.outOfBounds feature input.length)
  | narrowForRule {index : Nat} {function : Affine} {node : Interior} :
      forest.Reached input index → forest.nodes[index]? = some node →
      node.rule = .linear function → input.length < function.width →
      Fault forest input (.extent (.leadingFeatures function.width) input.length)
  | narrowForPredictor {index : Nat} {decision : Bool} {function : Affine} {node : Interior} :
      forest.Taken input index decision → forest.nodes[index]? = some node →
      (node.edge decision).predictor = .linear function → input.length < function.width →
      Fault forest input (.extent (.leadingFeatures function.width) input.length)
  | earlierChild {parent child : Nat} {decision : Bool} :
      forest.Taken input parent decision → forest.EdgeTo parent decision child →
      child ≤ parent → Fault forest input (.childNotLater parent child)
  | edgeOutside {tree index number : Nat} {decision : Bool} :
      forest.Taken input index decision → forest.Numbers index decision number →
      forest.edgeCount ≤ number →
      Fault forest input (.edgeOutside tree (Index.capped number) forest.edgeCount)

variable {forest : Forest}

/-- No fault is one of the budget of steps. -/
theorem not_fault_endlessTree {tree : Nat} : ¬forest.Fault input (.endlessTree tree) := by
  intro h
  cases h

/-! ## Logs -/

/-- A logged walk ends as a plain one, and the log grows by nodes of the forest from `least`
on, each of greater index than the one before. -/
def LogsFrom (forest : Forest) (least : Nat) (logged : Procedure (List Nat) (List Step))
    (plain : Except Error (List Step)) : Prop :=
  ∀ log, ∃ visited, effect logged log = (plain, log ++ visited) ∧ visited.Pairwise (· < ·) ∧
    ∀ index ∈ visited, least ≤ index ∧ index < forest.nodeCount

theorem logsFrom_pure (least : Nat) (path : List Step) :
    forest.LogsFrom least (pure path) (pure path) :=
  fun log => ⟨[], by rw [List.append_nil]; rfl, .nil, by simp⟩

theorem logsFrom_throw (least : Nat) (error : Error) :
    forest.LogsFrom least (throw error) (throw error) :=
  fun log => ⟨[], by rw [List.append_nil]; rfl, .nil, by simp⟩

/-- A question that fails ends both walks, and the log stays as it is. -/
theorem logsFrom_ask_bind {α : Type} {least : Nat} {question : Except Error α}
    {logged : α → Procedure (List Nat) (List Step)} {plain : α → Except Error (List Step)}
    (h : ∀ answer, question = .ok answer → forest.LogsFrom least (logged answer) (plain answer)) :
    forest.LogsFrom least (ask (fun _ => question) >>= logged) (question >>= plain) := by
  intro log
  cases hQuestion : question with
  | error error =>
      refine ⟨[], ?_, .nil, by simp⟩
      rw [effect_bind, effect_ask, List.append_nil]
      rfl
  | ok answer =>
      obtain ⟨visited, hEffect, hVisited⟩ := h answer hQuestion log
      refine ⟨visited, ?_, hVisited⟩
      rw [effect_bind, effect_ask]
      exact hEffect

/-- A visit stands in the log before the visits of later nodes. -/
theorem LogsFrom.visit {current : Nat} {logged : Procedure (List Nat) (List Step)}
    {plain : Except Error (List Step)} (hCurrent : current < forest.nodeCount)
    (h : forest.LogsFrom (current + 1) logged plain) :
    forest.LogsFrom current
      (do
        modify fun visited => visited ++ [current]
        logged)
      plain := by
  intro log
  obtain ⟨visited, hEffect, hAscending, hInside⟩ := h (log ++ [current])
  refine ⟨current :: visited, ?_, ?_, ?_⟩
  · rw [effect_bind, effect_modify]
    simpa using hEffect
  · exact List.pairwise_cons.mpr ⟨fun index hMem => (hInside index hMem).1, hAscending⟩
  · refine List.forall_mem_cons.mpr ⟨⟨le_rfl, hCurrent⟩, fun index hMem => ?_⟩
    have hBound := hInside index hMem
    omega

/-- A step is put before the path below. -/
theorem LogsFrom.step {least : Nat} {logged : Procedure (List Nat) (List Step)}
    {plain : Except Error (List Step)} (h : forest.LogsFrom least logged plain) (step : Step) :
    forest.LogsFrom least
      (do
        let below ← logged
        return step :: below)
      (do
        let below ← plain
        return step :: below) := by
  intro log
  obtain ⟨visited, hEffect, hVisited⟩ := h log
  refine ⟨visited, ?_, hVisited⟩
  rw [effect_bind, hEffect]
  cases plain <;> rfl

/-- A logged walk only differs from the walk in its log. -/
theorem logsFrom_walkLogged (tree steps current : Nat) :
    forest.LogsFrom current (forest.walkLogged tree input steps current)
      (forest.walkFrom tree input steps current) := by
  induction steps generalizing current with
  | zero => exact logsFrom_throw current (.endlessTree tree)
  | succ steps ih =>
      unfold walkLogged walkFrom
      refine logsFrom_ask_bind fun node hNode => .visit ?_ ?_
      · exact (Array.getElem?_eq_some_iff.mp (node_eq_ok_iff.mp hNode)).1
      refine logsFrom_ask_bind fun decision _ => logsFrom_ask_bind fun prediction _ => ?_
      cases (node.edge decision).target with
      | leaf => exact logsFrom_pure _ _
      | interior child =>
          dsimp only
          split
          · rename_i hLater
            -- The child is a later node, so it may follow in the log.
            intro log
            obtain ⟨visited, hEffect, hAscending, hInside⟩ := (ih child).step _ log
            exact ⟨visited, hEffect, hAscending, fun index hMem =>
              ⟨hLater.trans_le (hInside index hMem).1, (hInside index hMem).2⟩⟩
          · exact logsFrom_throw _ _

/-! ## Steps and faults -/

/-- The budget of steps does not matter once it exceeds the number of nodes that are left. -/
theorem walkFrom_eq_of_lt {tree current budget other : Nat}
    (hBudget : forest.nodeCount - current < budget)
    (hOther : forest.nodeCount - current < other) :
    forest.walkFrom tree input budget current = forest.walkFrom tree input other current := by
  induction budget generalizing current other with
  | zero => omega
  | succ budget ih =>
      obtain ⟨other, rfl⟩ : ∃ rest, other = rest + 1 := ⟨other - 1, by omega⟩
      unfold walkFrom
      cases hNode : forest.node current with
      | error error => rfl
      | ok node =>
          have hIndex : current < forest.nodeCount :=
            (Array.getElem?_eq_some_iff.mp (node_eq_ok_iff.mp hNode)).1
          have hChild : ∀ child, current < child →
              forest.walkFrom tree input budget child = forest.walkFrom tree input other child := by
            intro child hLater
            exact ih (by omega) (by omega)
          show (node.rule.holds input >>= _) = (node.rule.holds input >>= _)
          refine bind_congr fun decision => bind_congr fun prediction => ?_
          cases (node.edge decision).target with
          | leaf => rfl
          | interior child =>
              dsimp only
              split
              · rw [hChild child ‹_›]
              · rfl

/-- A walk from a reached node that has steps enough fails for a fault. -/
theorem fault_of_walkFrom {tree current budget : Nat} {error : Error}
    (hReached : forest.Reached input current) (hBudget : forest.nodeCount - current < budget)
    (h : forest.walkFrom tree input budget current = .error error) :
    forest.Fault input error := by
  induction budget generalizing current with
  | zero => omega
  | succ budget ih =>
      rw [walkFrom, except_bind_eq_error_iff] at h
      rcases h with hMissing | ⟨node, hNode, h⟩
      · unfold Forest.node at hMissing
        cases hEntry : forest.nodes[current]? with
        | some node => simp [hEntry] at hMissing
        | none =>
            rw [hEntry] at hMissing
            cases hMissing
            exact .missingNode hReached (Array.getElem?_eq_none_iff.mp hEntry)
      rw [node_eq_ok_iff] at hNode
      have hIndex : current < forest.nodeCount := (Array.getElem?_eq_some_iff.mp hNode).1
      rcases except_bind_eq_error_iff.mp h with hRule | ⟨decision, hRule, h⟩
      · rcases Rule.holds_eq_error_iff.mp hRule with
          ⟨_, _, hKind, hShort, rfl⟩ | ⟨_, hKind, hShort, rfl⟩
        · exact .missingFeature hReached hNode hKind hShort
        · exact .narrowForRule hReached hNode hKind hShort
      have hTaken : forest.Taken input current decision := ⟨hReached, node, hNode, hRule⟩
      rcases except_bind_eq_error_iff.mp h with hPrediction | ⟨prediction, _, h⟩
      · obtain ⟨_, hKind, hShort, rfl⟩ := Predictor.predict_eq_error_iff.mp hPrediction
        exact .narrowForPredictor hTaken hNode hKind hShort
      cases hTarget : (node.edge decision).target with
      | leaf => simp [hTarget] at h
      | interior child =>
          have hEdge := edgeTo_of_node hNode decision hTarget
          rw [hTarget] at h
          by_cases hLater : current < child
          · simp only [if_pos hLater, except_bind_pure_eq_error_iff] at h
            exact ih (hReached.child hTaken.2 hEdge) (by omega) h
          · simp only [if_neg hLater, except_throw_eq_error_iff] at h
            exact h ▸ .earlierChild hTaken hEdge (Nat.not_lt.mp hLater)

/-- The walk of a tree fails for want of its root or for a fault. -/
theorem fault_of_walk {tree : Nat} {error : Error} (h : forest.walk tree input = .error error) :
    (forest.treeCount ≤ tree ∧ error = .outOfBounds tree forest.treeCount) ∨
      forest.Fault input error := by
  rcases except_bind_eq_error_iff.mp h with hMissing | ⟨root, hRoot, hWalk⟩
  · unfold rootOf at hMissing
    cases hEntry : forest.roots[tree]? with
    | some root => simp [hEntry] at hMissing
    | none =>
        rw [hEntry] at hMissing
        cases hMissing
        exact .inl ⟨List.getElem?_eq_none_iff.mp hEntry, rfl⟩
  · have hReached : forest.Reached input root :=
      .root (List.mem_iff_getElem?.mpr ⟨tree, rootOf_eq_ok_iff.mp hRoot⟩)
    exact .inr (fault_of_walkFrom hReached (by omega) hWalk)

/-- From the root of a tree, the walk runs through few nodes. -/
theorem exists_runsThrough {tree root : Nat} (hRoot : forest.roots[tree]? = some root) :
    ∃ visited, forest.RunsThrough tree input root visited := by
  have hWalk : forest.walk tree input =
      forest.walkFrom tree input (forest.nodeCount + 1) root := by
    unfold walk
    rw [rootOf_eq_ok_iff.mpr hRoot]
    rfl
  obtain ⟨visited, hLogged, hAscending, hInside⟩ :=
    @logsFrom_walkLogged input forest tree (forest.nodeCount + 1) root []
  have hBelow : ∀ index ∈ visited, index < forest.nodeCount :=
    fun index hMem => (hInside index hMem).2
  refine ⟨visited, hWalk ▸ hLogged, hAscending, hBelow, ?_, fun budget hBudget => ?_⟩
  · have hSubset : visited ⊆ List.range forest.nodeCount :=
      fun index hMem => List.mem_range.mpr (hBelow index hMem)
    have hLength := (List.subperm_of_subset hAscending.nodup hSubset).length_le
    rwa [List.length_range] at hLength
  · rw [hWalk]
    exact walkFrom_eq_of_lt (by omega) (by omega)

/-! ## Evaluation -/

/-- The walk goes on from a visited node to later ones only. -/
theorem Walk.lt_of_mem {current : Nat} {visits : List Visit}
    (h : forest.Walk input current visits) {visit : Visit} (hVisit : visit ∈ visits)
    {child : Nat} (hEdge : forest.EdgeTo visit.node visit.decision child) :
    visit.node < child := by
  induction h with
  | leaf hMakes hTarget =>
      rw [List.mem_singleton.mp hVisit] at hEdge
      obtain ⟨node, hNode, hChild⟩ := hEdge
      rw [hMakes.found] at hNode
      cases hNode
      rw [hTarget] at hChild
      cases hChild
  | interior hMakes hTarget hLater _ ih =>
      rcases List.mem_cons.mp hVisit with rfl | hMem
      · rwa [EdgeTo.unique ⟨_, hMakes.found, hTarget⟩ hEdge]
      · exact ih hMem

/-- A taken edge is followed by a visit of one of the walks. -/
theorem Walked.exists_makes {walks : List (List Visit)} (h : forest.Walked input walks)
    {index : Nat} {decision : Bool} (hTaken : forest.Taken input index decision) :
    ∃ root visits visit node, visits ∈ walks ∧ forest.Walk input root visits ∧ visit ∈ visits ∧
      visit.node = index ∧ visit.decision = decision ∧ forest.Makes input visit node := by
  obtain ⟨visits, hVisits, visit, hVisit, hIndex, hDecision⟩ := h.taken_iff.mp hTaken
  obtain ⟨root, _, hWalk⟩ := h.exists_walk hVisits
  obtain ⟨node, hMakes⟩ := hWalk.makes_of_mem hVisit
  exact ⟨root, visits, visit, node, hVisits, hWalk, hVisit, hIndex, hDecision, hMakes⟩

/-- Where all trees are walked there is no fault. -/
theorem Walked.not_fault {walks : List (List Visit)} (h : forest.Walked input walks)
    {error : Error} : ¬forest.Fault input error := by
  -- The node of a reached index exists, and its rule decides.
  have hDecides : ∀ {index : Nat} {node : Interior}, forest.Reached input index →
      forest.nodes[index]? = some node → ∃ decision, node.rule.holds input = .ok decision := by
    intro index node hReached hNode
    obtain ⟨decision, _, same, hSame, hRule⟩ := h.exists_taken hReached
    rw [hNode] at hSame
    cases hSame
    exact ⟨decision, hRule⟩
  intro hFault
  cases hFault with
  | missingNode hReached hMissing =>
      obtain ⟨_, hTaken⟩ := h.exists_taken hReached
      exact absurd hTaken.lt_nodeCount (Nat.not_lt.mpr hMissing)
  | missingFeature hReached hNode hKind hShort =>
      obtain ⟨_, hRule⟩ := hDecides hReached hNode
      rw [Rule.holds_eq_error_iff.mpr (.inl ⟨_, _, hKind, hShort, rfl⟩)] at hRule
      cases hRule
  | narrowForRule hReached hNode hKind hShort =>
      obtain ⟨_, hRule⟩ := hDecides hReached hNode
      rw [Rule.holds_eq_error_iff.mpr (.inr ⟨_, hKind, hShort, rfl⟩)] at hRule
      cases hRule
  | narrowForPredictor hTaken hNode hKind hShort =>
      obtain ⟨_, _, _, same, _, _, _, rfl, rfl, hMakes⟩ := h.exists_makes hTaken
      have hFound := hMakes.found
      rw [hNode] at hFound
      cases hFound
      have hPrediction := hMakes.prediction
      rw [Predictor.predict_eq_error_iff.mpr ⟨_, hKind, hShort, rfl⟩] at hPrediction
      cases hPrediction
  | earlierChild hTaken hEdge hEarlier =>
      obtain ⟨_, _, _, _, _, hWalk, hVisit, rfl, rfl, _⟩ := h.exists_makes hTaken
      exact absurd (hWalk.lt_of_mem hVisit hEdge) (Nat.not_lt.mpr hEarlier)
  | edgeOutside hTaken hNumbers hOutside =>
      obtain ⟨_, visits, visit, node, hVisits, _, hVisit, rfl, rfl, hMakes⟩ :=
        h.exists_makes hTaken
      have hNumber := hNumbers.unique ⟨node, hMakes.found, hMakes.number⟩
      have hInside := h.inside visits hVisits visit hVisit
      omega

/-- An evaluation that fails meets a fault. -/
theorem fault_of_evaluate {error : Error} (h : forest.evaluate input = .error error) :
    forest.Fault input error := by
  rw [evaluate, except_bind_pure_eq_error_iff] at h
  obtain ⟨tree, hTree, hInside⟩ := exists_of_mapM_eq_error h
  rcases except_bind_eq_error_iff.mp hInside with hWalk | ⟨path, hPath, hEdges⟩
  -- The trees are numbered by the roots, so none is missing.
  · rcases fault_of_walk hWalk with ⟨hMissing, _⟩ | hFault
    · exact absurd (List.mem_range.mp hTree) (Nat.not_lt.mpr hMissing)
    · exact hFault
  · obtain ⟨root, visits, hRoot, hWalk, rfl⟩ := walk_eq_ok_iff.mp hPath
    cases hFind : (visits.map Visit.step).find?
        (fun step => decide (forest.edgeCount ≤ step.edge)) with
    | none => simp [hFind] at hEdges
    | some step =>
        simp only [hFind, except_throw_eq_error_iff] at hEdges
        obtain ⟨visit, hVisit, rfl⟩ := List.mem_map.mp (List.mem_of_find?_eq_some hFind)
        obtain ⟨node, hMakes⟩ := hWalk.makes_of_mem hVisit
        have hReached : forest.Reached input root :=
          .root (List.mem_iff_getElem?.mpr ⟨tree, hRoot⟩)
        have hOutside : forest.edgeCount ≤ visit.step.edge := by
          simpa using List.find?_some hFind
        exact hEdges ▸ .edgeOutside (hWalk.taken_of_mem hReached hVisit)
          ⟨node, hMakes.found, hMakes.number⟩ hOutside

/-- On any data, the walk of every tree visits nodes of the forest with ever greater index
and ends before its steps are used up.  An evaluation has a value for each tree and a mark
for each edge, unless there is a fault on the way of the input, and then it fails for one. -/
theorem walk_ends (forest : Forest) (input : List Float) :
    (∀ tree root, forest.roots[tree]? = some root →
      ∃ visited, forest.RunsThrough tree input root visited) ∧
    (∀ tree error, forest.walk tree input = .error error →
      (forest.treeCount ≤ tree ∧ error = .outOfBounds tree forest.treeCount) ∨
        forest.Fault input error) ∧
    (∀ tree other, forest.walk tree input ≠ .error (.endlessTree other)) ∧
    (∀ error, forest.evaluate input = .error error → forest.Fault input error) ∧
    ((∃ outcome, forest.evaluate input = .ok outcome ∧
        outcome.treeOutputs.length = forest.treeCount ∧
        outcome.edgeIndicator.length = forest.edgeCount) ↔
      ∀ error, ¬forest.Fault input error) := by
  refine ⟨fun tree root hRoot => exists_runsThrough hRoot, fun tree error => fault_of_walk,
    fun tree other hEndless => ?_, fun error => fault_of_evaluate, ?_, fun hNone => ?_⟩
  · rcases fault_of_walk hEndless with ⟨_, hError⟩ | hFault
    · cases hError
    · exact not_fault_endlessTree hFault
  · rintro ⟨outcome, hOutcome, _⟩ error
    obtain ⟨walks, hWalked, _⟩ := evaluate_eq_ok_iff.mp hOutcome
    exact hWalked.not_fault
  · cases hResult : forest.evaluate input with
    | error error => exact absurd (fault_of_evaluate hResult) (hNone error)
    | ok outcome => exact ⟨outcome, rfl, length_of_evaluate hResult⟩

/-- A chain through all nodes, whose last edge leads behind them. -/
def openChain : Forest where
  nodes := #[
    ⟨.threshold 0 0, ⟨.constant 0, .leaf⟩, ⟨.constant 1, .interior 1⟩, 0⟩,
    ⟨.threshold 0 0, ⟨.constant 0, .leaf⟩, ⟨.constant 1, .interior 2⟩, 2⟩]
  roots := [0]
  bias := 0

theorem walk_ends_openChain :
    openChain.roots[0]? = some 0 ∧
    (∃ visited, openChain.RunsThrough 0 [1] 0 visited) ∧
    openChain.evaluate [1] = .error (.outOfBounds 2 2) ∧
    openChain.Fault [1] (.outOfBounds 2 2) := by
  obtain ⟨hRuns, _, _, hFault, _⟩ := walk_ends openChain [1]
  exact ⟨rfl, hRuns 0 0 rfl, rfl, hFault _ rfl⟩

/-- The step onto the missing node needs a budget of its own. -/
example : openChain.walkFrom 0 [1] openChain.nodeCount 0 = .error (.endlessTree 0) := rfl

end Forest

end ForestGraph
