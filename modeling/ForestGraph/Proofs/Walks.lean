import ForestGraph.Forest.Evaluation
import ForestGraph.Proofs.Features

/-!
# Walks through a forest

The evaluation of a forest is described without its bound on the number of
steps: a `Walk` visits nodes of ever greater index until it ends at a leaf, the
values of the trees are the values of the walks from their roots, and an edge is
marked exactly when it is taken from a node that can be reached.  None of this
needs a well-formed forest.
-/

namespace ForestGraph

/-- A visit of a node: the decision there and the step that follows. -/
structure Visit where
  node : Nat
  decision : Bool
  step : Step

/-- The value of the path that some visits follow. -/
def visitsValue (visits : List Visit) : Float :=
  pathValue (visits.map fun visit => visit.step.prediction)

theorem pathValue_map_step (visits : List Visit) :
    pathValue ((visits.map Visit.step).map Step.prediction) = visitsValue visits := by
  rw [List.map_map]
  rfl

namespace Forest

/-- An edge leads from one node to another. -/
def EdgeTo (forest : Forest) (parent : Nat) (decision : Bool) (child : Nat) : Prop :=
  ∃ node, forest.nodes[parent]? = some node ∧ (node.edge decision).target = .interior child

/-- The rule of a node decides for an input. -/
def Decides (forest : Forest) (input : List Float) (index : Nat) (decision : Bool) : Prop :=
  ∃ node, forest.nodes[index]? = some node ∧ node.rule.holds input = .ok decision

/-- The number that an edge carries. -/
def Numbers (forest : Forest) (index : Nat) (decision : Bool) (number : Nat) : Prop :=
  ∃ node, forest.nodes[index]? = some node ∧ number = node.firstEdge + decision.toNat

/-- All edges lead to later nodes of the forest. -/
def Descends (forest : Forest) : Prop :=
  ∀ {parent : Nat} {decision : Bool} {child : Nat}, forest.EdgeTo parent decision child →
    parent < child ∧ child < forest.nodeCount

/-- The visit that an input makes at a node. -/
structure Makes (forest : Forest) (input : List Float) (visit : Visit) (node : Interior) :
    Prop where
  found : forest.nodes[visit.node]? = some node
  rule : node.rule.holds input = .ok visit.decision
  prediction : (node.edge visit.decision).predictor.predict input = .ok visit.step.prediction
  number : visit.step.edge = node.firstEdge + visit.decision.toNat

/-- The visits that an input makes from a node down to a leaf. -/
inductive Walk (forest : Forest) (input : List Float) : Nat → List Visit → Prop where
  | leaf {visit : Visit} {node : Interior} : forest.Makes input visit node →
      (node.edge visit.decision).target = .leaf → Walk forest input visit.node [visit]
  | interior {visit : Visit} {node : Interior} {child : Nat} {below : List Visit} :
      forest.Makes input visit node → (node.edge visit.decision).target = .interior child →
      visit.node < child → Walk forest input child below →
      Walk forest input visit.node (visit :: below)

/-- The nodes that an input reaches: the roots, and the children at the ends of
edges that are taken. -/
inductive Reached (forest : Forest) (input : List Float) : Nat → Prop where
  | root {index : Nat} : index ∈ forest.roots → Reached forest input index
  | child {parent : Nat} {decision : Bool} {index : Nat} : Reached forest input parent →
      forest.Decides input parent decision → forest.EdgeTo parent decision index →
      Reached forest input index

/-- An edge is taken when its node is reached and decides for it. -/
def Taken (forest : Forest) (input : List Float) (index : Nat) (decision : Bool) : Prop :=
  forest.Reached input index ∧ forest.Decides input index decision

variable {forest : Forest} {input : List Float}

theorem Decides.unique {index : Nat} {decision other : Bool}
    (h : forest.Decides input index decision) (hOther : forest.Decides input index other) :
    other = decision := by
  obtain ⟨node, hNode, hRule⟩ := h
  obtain ⟨same, hSame, hOtherRule⟩ := hOther
  rw [hNode] at hSame
  cases hSame
  rw [hRule] at hOtherRule
  exact (Except.ok.inj hOtherRule).symm

theorem EdgeTo.unique {parent child other : Nat} {decision : Bool}
    (h : forest.EdgeTo parent decision child) (hOther : forest.EdgeTo parent decision other) :
    other = child := by
  obtain ⟨node, hNode, hTarget⟩ := h
  obtain ⟨same, hSame, hOtherTarget⟩ := hOther
  rw [hNode] at hSame
  cases hSame
  rw [hTarget] at hOtherTarget
  exact (Target.interior.inj hOtherTarget).symm

/-- An edge is found at its node. -/
theorem edgeTo_of_node {index child : Nat} {node : Interior}
    (hNode : forest.nodes[index]? = some node) (decision : Bool)
    (hTarget : (node.edge decision).target = .interior child) :
    forest.EdgeTo index decision child :=
  ⟨node, hNode, hTarget⟩

theorem numbers_of_node {index : Nat} {node : Interior}
    (hNode : forest.nodes[index]? = some node) (decision : Bool) :
    forest.Numbers index decision (node.firstEdge + decision.toNat) :=
  ⟨node, hNode, rfl⟩

theorem EdgeTo.lt_nodeCount {parent child : Nat} {decision : Bool}
    (h : forest.EdgeTo parent decision child) : parent < forest.nodeCount := by
  obtain ⟨node, hNode, _⟩ := h
  exact (Array.getElem?_eq_some_iff.mp hNode).1

theorem Makes.decides {visit : Visit} {node : Interior} (h : forest.Makes input visit node) :
    forest.Decides input visit.node visit.decision :=
  ⟨node, h.found, h.rule⟩

theorem Makes.lt_nodeCount {visit : Visit} {node : Interior}
    (h : forest.Makes input visit node) : visit.node < forest.nodeCount :=
  (Array.getElem?_eq_some_iff.mp h.found).1

theorem Makes.step_eq {visit : Visit} {node : Interior} (h : forest.Makes input visit node) :
    (⟨node.firstEdge + visit.decision.toNat, visit.step.prediction⟩ : Step) = visit.step := by
  rw [← h.number]

/-- At a node there is one visit to make. -/
theorem Makes.unique {visit other : Visit} {node otherNode : Interior}
    (h : forest.Makes input visit node) (hOther : forest.Makes input other otherNode)
    (hIndex : other.node = visit.node) : other = visit ∧ otherNode = node := by
  obtain ⟨index, decision, number, prediction⟩ := visit
  obtain ⟨otherIndex, otherDecision, otherNumber, otherPrediction⟩ := other
  obtain ⟨hNode, hRule, hPrediction, hNumber⟩ := h
  obtain ⟨hOtherNode, hOtherRule, hOtherPrediction, hOtherNumber⟩ := hOther
  subst hIndex
  rw [hOtherNode] at hNode
  cases hNode
  rw [hOtherRule] at hRule
  cases hRule
  rw [hOtherPrediction] at hPrediction
  cases hPrediction
  rw [← hNumber] at hOtherNumber
  cases hOtherNumber
  exact ⟨rfl, rfl⟩

namespace Walk

/-- From a node there is one walk. -/
theorem unique {current : Nat} {visits others : List Visit}
    (h : forest.Walk input current visits) (hOther : forest.Walk input current others) :
    others = visits := by
  induction h generalizing others with
  | @leaf visit node hMakes hTarget =>
      -- The node of the walk is a field of its visit, so it is named before the cases.
      generalize hCurrent : visit.node = current at hOther
      cases hOther with
      | leaf hOtherMakes _ =>
          obtain ⟨rfl, rfl⟩ := hMakes.unique hOtherMakes hCurrent.symm
          rfl
      | interior hOtherMakes hOtherTarget _ _ =>
          obtain ⟨rfl, rfl⟩ := hMakes.unique hOtherMakes hCurrent.symm
          rw [hTarget] at hOtherTarget
          cases hOtherTarget
  | @interior visit node child below hMakes hTarget _ _ ih =>
      generalize hCurrent : visit.node = current at hOther
      cases hOther with
      | leaf hOtherMakes hOtherTarget =>
          obtain ⟨rfl, rfl⟩ := hMakes.unique hOtherMakes hCurrent.symm
          rw [hTarget] at hOtherTarget
          cases hOtherTarget
      | interior hOtherMakes hOtherTarget _ hBelow =>
          obtain ⟨rfl, rfl⟩ := hMakes.unique hOtherMakes hCurrent.symm
          rw [hTarget] at hOtherTarget
          cases hOtherTarget
          rw [ih hBelow]

/-- A walk starts with the visit of its first node. -/
theorem head {current : Nat} {visits : List Visit} (h : forest.Walk input current visits) :
    ∃ visit ∈ visits, visit.node = current := by
  cases h with
  | @leaf visit _ _ _ => exact ⟨visit, by simp, rfl⟩
  | @interior visit _ _ _ _ _ _ _ => exact ⟨visit, by simp, rfl⟩

/-- A walk has no more visits than there are nodes from its first node on. -/
theorem length_le {current : Nat} {visits : List Visit} (h : forest.Walk input current visits) :
    current + visits.length ≤ forest.nodeCount := by
  induction h with
  | leaf hMakes _ => exact hMakes.lt_nodeCount
  | interior _ _ hLater _ ih =>
      rw [List.length_cons]
      omega

/-- Every visit of a walk is one that the input makes. -/
theorem makes_of_mem {current : Nat} {visits : List Visit}
    (h : forest.Walk input current visits) {visit : Visit} (hVisit : visit ∈ visits) :
    ∃ node, forest.Makes input visit node := by
  induction h with
  | leaf hMakes _ =>
      rw [List.mem_singleton.mp hVisit]
      exact ⟨_, hMakes⟩
  | interior hMakes _ _ _ ih =>
      rcases List.mem_cons.mp hVisit with rfl | hBelow
      · exact ⟨_, hMakes⟩
      · exact ih hBelow

/-- A walk goes on from a visited node to the end of the edge taken there. -/
theorem next_of_mem {current : Nat} {visits : List Visit}
    (h : forest.Walk input current visits) {visit : Visit} (hVisit : visit ∈ visits)
    {child : Nat} (hEdge : forest.EdgeTo visit.node visit.decision child) :
    ∃ next ∈ visits, next.node = child := by
  induction h with
  | leaf hMakes hTarget =>
      rw [List.mem_singleton.mp hVisit] at hEdge
      obtain ⟨node, hNode, hChild⟩ := hEdge
      rw [hMakes.found] at hNode
      cases hNode
      rw [hTarget] at hChild
      cases hChild
  | interior hMakes hTarget _ hBelow ih =>
      rcases List.mem_cons.mp hVisit with rfl | hMem
      · obtain ⟨next, hNext, hIndex⟩ := hBelow.head
        have hChild := EdgeTo.unique ⟨_, hMakes.found, hTarget⟩ hEdge
        exact ⟨next, List.mem_cons_of_mem _ hNext, hIndex.trans hChild.symm⟩
      · obtain ⟨next, hNext, hIndex⟩ := ih hMem
        exact ⟨next, List.mem_cons_of_mem _ hNext, hIndex⟩

/-- All edges on a walk from a reached node are taken. -/
theorem taken_of_mem {current : Nat} {visits : List Visit}
    (h : forest.Walk input current visits) (hReached : forest.Reached input current)
    {visit : Visit} (hVisit : visit ∈ visits) :
    forest.Taken input visit.node visit.decision := by
  induction h with
  | leaf hMakes _ =>
      rw [List.mem_singleton.mp hVisit]
      exact ⟨hReached, hMakes.decides⟩
  | interior hMakes hTarget _ _ ih =>
      rcases List.mem_cons.mp hVisit with rfl | hBelow
      · exact ⟨hReached, hMakes.decides⟩
      · exact ih (hReached.child hMakes.decides ⟨_, hMakes.found, hTarget⟩) hBelow

end Walk

/-! ## Walks and the evaluation -/

/-- What is found within a number of steps is a walk. -/
theorem walk_of_walkFrom {tree fuel current : Nat} {path : List Step}
    (h : forest.walkFrom tree input fuel current = .ok path) :
    ∃ visits, forest.Walk input current visits ∧ path = visits.map Visit.step := by
  induction fuel generalizing current path with
  -- Without steps left the evaluation fails, so there is nothing to show.
  | zero => cases h
  | succ fuel ih =>
      simp only [walkFrom, except_bind_eq_ok_iff, node_eq_ok_iff] at h
      obtain ⟨node, hNode, decision, hRule, prediction, hPrediction, h⟩ := h
      have hMakes : forest.Makes input
          ⟨current, decision, ⟨node.firstEdge + decision.toNat, prediction⟩⟩ node :=
        ⟨hNode, hRule, hPrediction, rfl⟩
      cases hTarget : (node.edge decision).target with
      | leaf =>
          rw [hTarget] at h
          cases h
          exact ⟨_, .leaf hMakes hTarget, rfl⟩
      | interior child =>
          rw [hTarget] at h
          by_cases hLater : current < child
          · simp only [if_pos hLater, except_bind_eq_ok_iff, except_pure_eq_ok_iff] at h
            obtain ⟨below, hBelow, rfl⟩ := h
            obtain ⟨visits, hWalk, rfl⟩ := ih hBelow
            exact ⟨_, .interior hMakes hTarget hLater hWalk, rfl⟩
          · simp only [if_neg hLater] at h
            exact absurd h (except_throw_ne_ok _ _)

/-- A walk is found if the number of steps allows for its length. -/
theorem walkFrom_of_walk {tree fuel current : Nat} {visits : List Visit}
    (h : forest.Walk input current visits) (hFuel : visits.length ≤ fuel) :
    forest.walkFrom tree input fuel current = .ok (visits.map Visit.step) := by
  induction h generalizing fuel with
  | @leaf visit node hMakes hTarget =>
      obtain ⟨fuel, rfl⟩ : ∃ rest, fuel = rest + 1 := ⟨fuel - 1, by simp at hFuel; omega⟩
      simp only [walkFrom, except_bind_eq_ok_iff, node_eq_ok_iff]
      refine ⟨node, hMakes.found, visit.decision, hMakes.rule, visit.step.prediction,
        hMakes.prediction, ?_⟩
      rw [hTarget, hMakes.step_eq]
      rfl
  | @interior visit node child below hMakes hTarget hLater _ ih =>
      rw [List.length_cons] at hFuel
      -- One step is spent on the first visit, and the others suffice for the walk below.
      obtain ⟨fuel, rfl⟩ : ∃ rest, fuel = rest + 1 := ⟨fuel - 1, by omega⟩
      simp only [walkFrom, except_bind_eq_ok_iff, node_eq_ok_iff]
      refine ⟨node, hMakes.found, visit.decision, hMakes.rule, visit.step.prediction,
        hMakes.prediction, ?_⟩
      rw [hTarget, hMakes.step_eq]
      simp only [if_pos hLater, except_bind_eq_ok_iff]
      exact ⟨_, ih (by omega), rfl⟩

/-- A tree is walked from its root. -/
theorem walk_eq_ok_iff {tree : Nat} {path : List Step} :
    forest.walk tree input = .ok path ↔
      ∃ root visits, forest.roots[tree]? = some root ∧ forest.Walk input root visits ∧
        path = visits.map Visit.step := by
  simp only [walk, except_bind_eq_ok_iff, rootOf_eq_ok_iff]
  constructor
  · rintro ⟨root, hRoot, hPath⟩
    obtain ⟨visits, hWalk, rfl⟩ := walk_of_walkFrom hPath
    exact ⟨root, visits, hRoot, hWalk, rfl⟩
  · rintro ⟨root, visits, hRoot, hWalk, rfl⟩
    have hLength := hWalk.length_le
    exact ⟨root, hRoot, walkFrom_of_walk hWalk (by omega)⟩

/-- From every node of a forest whose edges descend there is a walk, for inputs
with every feature that is read. -/
theorem exists_walk (hDescends : forest.Descends)
    (hReads : forest.ReadsBelow input.length) {index : Nat}
    (hIndex : index < forest.nodeCount) : ∃ visits, forest.Walk input index visits := by
  -- The induction is on the number of nodes behind the node.
  induction hBehind : forest.nodeCount - index using Nat.strongRecOn
    generalizing index with
  | ind behind ih =>
      have hNode : forest.nodes[index]? = some forest.nodes[index] :=
        Array.getElem?_eq_getElem hIndex
      generalize forest.nodes[index] = node at hNode
      have hSuffices := readsBelow_iff.mp hReads index node hNode
      obtain ⟨decision, hRule⟩ := Rule.exists_holds_iff.mpr hSuffices.rule
      obtain ⟨prediction, hPrediction⟩ :=
        Predictor.exists_predict_iff.mpr (hSuffices.predictor decision)
      have hMakes : forest.Makes input
          ⟨index, decision, ⟨node.firstEdge + decision.toNat, prediction⟩⟩ node :=
        ⟨hNode, hRule, hPrediction, rfl⟩
      cases hTarget : (node.edge decision).target with
      | leaf => exact ⟨_, .leaf hMakes hTarget⟩
      | interior child =>
          obtain ⟨hLater, hChild⟩ := hDescends ⟨node, hNode, hTarget⟩
          obtain ⟨below, hBelow⟩ := ih (forest.nodeCount - child) (by omega) hChild rfl
          exact ⟨_, .interior hMakes hTarget hLater hBelow⟩

/-! ## Outcomes -/

/-- Walks from all roots, over edges with numbers of the forest. -/
structure Walked (forest : Forest) (input : List Float) (walks : List (List Visit)) :
    Prop where
  fromRoots : List.Forall₂ (forest.Walk input) forest.roots walks
  inside : ∀ visits ∈ walks, ∀ visit ∈ visits, visit.step.edge < forest.edgeCount

/-- The outcome of walks from all roots. -/
def outcomeOf (forest : Forest) (walks : List (List Visit)) : Outcome where
  output := sequentialSum (walks.map visitsValue ++ [forest.bias])
  treeOutputs := walks.map visitsValue
  edgeIndicator := (List.range forest.edgeCount).map
    (walks.flatMap fun visits => visits.map fun visit => visit.step.edge).contains

theorem length_outcomeOf (forest : Forest) (walks : List (List Visit)) :
    (forest.outcomeOf walks).edgeIndicator.length = 2 * forest.nodeCount := by
  simp only [outcomeOf, List.length_map, List.length_range, edgeCount, edgesPerNode]
  omega

theorem walkInside_eq_ok_iff {tree : Nat} {path : List Step} :
    forest.walkInside input tree = .ok path ↔
      ∃ root, forest.roots[tree]? = some root ∧ ∃ visits, (forest.Walk input root visits ∧
        ∀ visit ∈ visits, visit.step.edge < forest.edgeCount) ∧
        path = visits.map Visit.step := by
  simp only [walkInside, except_bind_eq_ok_iff, walk_eq_ok_iff]
  constructor
  · rintro ⟨_, ⟨root, visits, hRoot, hWalk, rfl⟩, h⟩
    cases hFind : (visits.map Visit.step).find?
        (fun step => decide (forest.edgeCount ≤ step.edge)) with
    | some step =>
        rw [hFind] at h
        exact absurd h (except_throw_ne_ok _ _)
    | none =>
        rw [hFind] at h
        cases h
        refine ⟨root, hRoot, visits, ⟨hWalk, fun visit hVisit => ?_⟩, rfl⟩
        have hInside := List.find?_eq_none.mp hFind visit.step (List.mem_map_of_mem hVisit)
        simpa using hInside
  · rintro ⟨root, hRoot, visits, ⟨hWalk, hInside⟩, rfl⟩
    have hFind : (visits.map Visit.step).find?
        (fun step => decide (forest.edgeCount ≤ step.edge)) = none := by
      rw [List.find?_eq_none]
      intro step hStep
      obtain ⟨visit, hVisit, rfl⟩ := List.mem_map.mp hStep
      have hLt := hInside visit hVisit
      simpa using hLt
    refine ⟨_, ⟨root, visits, hRoot, hWalk, rfl⟩, ?_⟩
    rw [hFind]
    rfl

/-- All trees are walked inside the edges exactly when every root has a walk. -/
theorem mapM_walkInside_eq_ok_iff {paths : List (List Step)} :
    (List.range forest.treeCount).mapM (forest.walkInside input) = .ok paths ↔
      ∃ walks, forest.Walked input walks ∧ paths = walks.map (List.map Visit.step) := by
  rw [mapM_eq_ok_iff]
  simp only [walkInside_eq_ok_iff]
  -- One walk for each tree is one walk for each root, in the same order.
  rw [treeCount, forall₂_range_iff, forall₂_exists_map_iff]
  refine exists_congr fun walks => and_congr_left fun _ => ?_
  constructor
  · intro h
    refine ⟨h.imp fun _ _ hWalk => hWalk.1, fun visits hVisits => ?_⟩
    obtain ⟨index, hIndex⟩ := List.mem_iff_getElem?.mp hVisits
    obtain ⟨_, _, _, hInside⟩ := forall₂_getElem?_right h hIndex
    exact hInside
  · rintro ⟨hWalks, hInside⟩
    rw [List.forall₂_iff_zip] at hWalks ⊢
    exact ⟨hWalks.1, fun hPair => ⟨hWalks.2 hPair, hInside _ (List.of_mem_zip hPair).2⟩⟩

/-- A forest is evaluated exactly when every root has a walk. -/
theorem evaluate_eq_ok_iff {outcome : Outcome} :
    forest.evaluate input = .ok outcome ↔
      ∃ walks, forest.Walked input walks ∧ outcome = forest.outcomeOf walks := by
  have hValues : ∀ walks : List (List Visit), (walks.map (List.map Visit.step)).map
      (fun path => pathValue (path.map Step.prediction)) = walks.map visitsValue := by
    intro walks
    rw [List.map_map]
    refine List.map_congr_left fun visits _ => ?_
    rw [Function.comp_apply, pathValue_map_step]
  have hEdges : ∀ walks : List (List Visit), (walks.map (List.map Visit.step)).flatMap
      (fun path => path.map Step.edge) =
      walks.flatMap fun visits => visits.map fun visit => visit.step.edge := by
    intro walks
    simp only [List.flatMap_map, List.map_map]
    rfl
  simp only [evaluate, except_bind_eq_ok_iff, mapM_walkInside_eq_ok_iff, except_pure_eq_ok_iff]
  constructor
  · rintro ⟨_, ⟨walks, hWalked, rfl⟩, rfl⟩
    refine ⟨walks, hWalked, ?_⟩
    rw [hValues, hEdges]
    rfl
  · rintro ⟨walks, hWalked, rfl⟩
    refine ⟨_, ⟨walks, hWalked, rfl⟩, ?_⟩
    rw [hValues, hEdges]
    rfl

/-- The outcome of a forest is determined by its input. -/
theorem Walked.unique {walks others : List (List Visit)} (h : forest.Walked input walks)
    (hOther : forest.Walked input others) : others = walks := by
  have hSame : List.Forall₂ (· = ·) others walks := by
    have hBoth := hOther.fromRoots
    have hWalks := h.fromRoots
    rw [List.forall₂_iff_get] at hBoth hWalks ⊢
    refine ⟨hBoth.1.symm.trans hWalks.1, fun index hLeft hRight => ?_⟩
    have hRoot : index < forest.roots.length := by omega
    exact (hWalks.2 index hRoot hRight).unique (hBoth.2 index hRoot hLeft)
  rwa [List.forall₂_eq_eq_eq] at hSame

/-! ## Taken edges -/

theorem Taken.lt_nodeCount {index : Nat} {decision : Bool}
    (h : forest.Taken input index decision) : index < forest.nodeCount := by
  obtain ⟨_, node, hNode, _⟩ := h
  exact (Array.getElem?_eq_some_iff.mp hNode).1

/-- Walks from all roots come from some root each. -/
theorem Walked.exists_walk {walks : List (List Visit)} (h : forest.Walked input walks)
    {visits : List Visit} (hVisits : visits ∈ walks) :
    ∃ root ∈ forest.roots, forest.Walk input root visits := by
  obtain ⟨tree, hTree⟩ := List.mem_iff_getElem?.mp hVisits
  obtain ⟨root, hRoot, hWalk⟩ := forall₂_getElem?_right h.fromRoots hTree
  exact ⟨root, List.mem_iff_getElem?.mpr ⟨tree, hRoot⟩, hWalk⟩

/-- The reached nodes are those that the walks from the roots visit. -/
theorem Walked.exists_visit {walks : List (List Visit)} (h : forest.Walked input walks)
    {index : Nat} (hReached : forest.Reached input index) :
    ∃ visits ∈ walks, ∃ visit ∈ visits, visit.node = index := by
  induction hReached with
  | @root index hRoot =>
      obtain ⟨tree, hTree⟩ := List.mem_iff_getElem?.mp hRoot
      obtain ⟨visits, hVisits, hWalk⟩ := forall₂_getElem?_left h.fromRoots hTree
      obtain ⟨visit, hVisit, hIndex⟩ := hWalk.head
      exact ⟨visits, List.mem_iff_getElem?.mpr ⟨tree, hVisits⟩, visit, hVisit, hIndex⟩
  | @child parent decision child _ hDecides hEdge ih =>
      -- The walk that visits the parent goes on to the child, as the input decides for the edge.
      obtain ⟨visits, hVisits, visit, hVisit, rfl⟩ := ih
      obtain ⟨root, _, hWalk⟩ := h.exists_walk hVisits
      obtain ⟨node, hMakes⟩ := hWalk.makes_of_mem hVisit
      rw [hMakes.decides.unique hDecides] at hEdge
      obtain ⟨next, hNext, hIndex⟩ := hWalk.next_of_mem hVisit hEdge
      exact ⟨visits, hVisits, next, hNext, hIndex⟩

/-- The taken edges are those that the walks from the roots follow. -/
theorem Walked.taken_iff {walks : List (List Visit)} (h : forest.Walked input walks)
    {index : Nat} {decision : Bool} :
    forest.Taken input index decision ↔
      ∃ visits ∈ walks, ∃ visit ∈ visits, visit.node = index ∧ visit.decision = decision := by
  constructor
  · rintro ⟨hNode, hDecides⟩
    obtain ⟨visits, hVisits, visit, hVisit, rfl⟩ := h.exists_visit hNode
    obtain ⟨root, _, hWalk⟩ := h.exists_walk hVisits
    obtain ⟨node, hMakes⟩ := hWalk.makes_of_mem hVisit
    exact ⟨visits, hVisits, visit, hVisit, rfl, hDecides.unique hMakes.decides⟩
  · rintro ⟨visits, hVisits, visit, hVisit, rfl, rfl⟩
    obtain ⟨root, hRoot, hWalk⟩ := h.exists_walk hVisits
    exact hWalk.taken_of_mem (.root hRoot) hVisit

/-- From every reached node one edge is taken. -/
theorem Walked.exists_taken {walks : List (List Visit)} (h : forest.Walked input walks)
    {index : Nat} (hReached : forest.Reached input index) :
    ∃ decision, forest.Taken input index decision := by
  obtain ⟨visits, hVisits, visit, hVisit, hIndex⟩ := h.exists_visit hReached
  exact ⟨visit.decision, h.taken_iff.mpr ⟨visits, hVisits, visit, hVisit, hIndex, rfl⟩⟩

/-- An edge number is marked when it is the number of a taken edge. -/
theorem Walked.marked_iff {walks : List (List Visit)} (h : forest.Walked input walks)
    {number : Nat} (hNumber : number < forest.edgeCount) :
    (forest.outcomeOf walks).edgeIndicator[number]? = some true ↔
      ∃ index decision, forest.Taken input index decision ∧
        forest.Numbers index decision number := by
  have hMarked : (forest.outcomeOf walks).edgeIndicator[number]? = some true ↔
      ∃ visits ∈ walks, ∃ visit ∈ visits, visit.step.edge = number := by
    simp [outcomeOf, hNumber]
  have hMakes : ∀ visits ∈ walks, ∀ visit ∈ visits, ∃ node, forest.Makes input visit node := by
    intro visits hVisits visit hVisit
    obtain ⟨root, _, hWalk⟩ := h.exists_walk hVisits
    exact hWalk.makes_of_mem hVisit
  rw [hMarked]
  constructor
  · rintro ⟨visits, hVisits, visit, hVisit, rfl⟩
    obtain ⟨node, hNode⟩ := hMakes visits hVisits visit hVisit
    exact ⟨visit.node, visit.decision, h.taken_iff.mpr ⟨visits, hVisits, visit, hVisit, rfl, rfl⟩,
      node, hNode.found, hNode.number⟩
  · rintro ⟨index, decision, hTaken, node, hFound, rfl⟩
    obtain ⟨visits, hVisits, visit, hVisit, rfl, rfl⟩ := h.taken_iff.mp hTaken
    -- The visit is made at the node that the number belongs to, so it has this number.
    obtain ⟨same, hSame⟩ := hMakes visits hVisits visit hVisit
    have hNode := hSame.found
    rw [hFound] at hNode
    cases hNode
    exact ⟨visits, hVisits, visit, hVisit, hSame.number⟩

end Forest

end ForestGraph
