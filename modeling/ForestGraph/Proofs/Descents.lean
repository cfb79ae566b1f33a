import ForestGraph.Proofs.Shape

/-!
# What a well-formed forest computes

The evaluation of a well-formed forest against a description that does not walk:
an edge is taken when its node is reached and decides for it, the taken edges of
a tree form one path from the root to a leaf, and the value of the tree is the sum
of the predictions along that path, added from the leaf upwards.
-/

namespace ForestGraph.Forest

/-- A path from a node down to a leaf, as its nodes and the edges that leave them. -/
inductive Descent (forest : Forest) : Nat → List (Nat × Bool) → Prop where
  | leaf {index : Nat} {node : Interior} {decision : Bool} :
      forest.nodes[index]? = some node → (node.edge decision).target = .leaf →
      Descent forest index [(index, decision)]
  | interior {index child : Nat} {decision : Bool} {below : List (Nat × Bool)} :
      forest.EdgeTo index decision child → Descent forest child below →
      Descent forest index ((index, decision) :: below)

/-- The nodes of the tree below a root. -/
inductive Below (forest : Forest) (root : Nat) : Nat → Prop where
  | root : Below forest root root
  | child {parent : Nat} {decision : Bool} {index : Nat} : Below forest root parent →
      forest.EdgeTo parent decision index → Below forest root index

/-- The prediction of an edge for an input. -/
def Predicts (forest : Forest) (input : List Float) (index : Nat) (decision : Bool)
    (prediction : Float) : Prop :=
  ∃ node, forest.nodes[index]? = some node ∧
    (node.edge decision).predictor.predict input = .ok prediction

/-- The mark of an edge, found at the number that the edge has in a well-formed forest. -/
def mark? (marks : List Bool) (index : Nat) (decision : Bool) : Option Bool :=
  marks[2 * index + decision.toNat]?

/-- The value of one tree and the marks of its edges: the marked edges are those of
one path from the root to a leaf, and the value is the sum `p₁ + (p₂ + (... + pₖ))` of
the predictions on that path. -/
def TreeMeets (forest : Forest) (input : List Float) (marks : List Bool) (root : Nat)
    (value : Float) : Prop :=
  ∃ path leading last, forest.Descent root path ∧
    (∀ index decision, (index, decision) ∈ path ↔
      forest.Below root index ∧ mark? marks index decision = some true) ∧
    List.Forall₂ (fun edge prediction => forest.Predicts input edge.1 edge.2 prediction) path
      (leading ++ [last]) ∧
    value = leading.foldr (fun prediction below => sequentialSum [prediction, below]) last

/-- What an outcome of a forest has to be. -/
structure Meets (forest : Forest) (input : List Float) (outcome : Outcome) : Prop where
  /-- A node that is no root is the end of exactly one edge. -/
  entered : ∀ index < forest.nodeCount, index ∉ forest.roots →
    ∃! edge : Nat × Bool, forest.EdgeTo edge.1 edge.2 index
  /-- There are two marks for each node. -/
  size : outcome.edgeIndicator.length = 2 * forest.nodeCount
  /-- Exactly the taken edges are marked. -/
  taken : ∀ index < forest.nodeCount, ∀ decision,
    mark? outcome.edgeIndicator index decision = some true ↔ forest.Taken input index decision
  /-- One edge of a reached node is marked. -/
  reached : ∀ index, forest.Reached input index →
    ∃! decision, mark? outcome.edgeIndicator index decision = some true
  /-- No edge of any other node is marked. -/
  unreached : ∀ index < forest.nodeCount, ¬ forest.Reached input index → ∀ decision,
    mark? outcome.edgeIndicator index decision = some false
  /-- No node belongs to two trees. -/
  disjoint : ∀ {tree other root otherRoot index : Nat}, forest.roots[tree]? = some root →
    forest.roots[other]? = some otherRoot → forest.Below root index →
    forest.Below otherRoot index → other = tree
  trees : List.Forall₂ (forest.TreeMeets input outcome.edgeIndicator) forest.roots
    outcome.treeOutputs
  output : outcome.output =
    (outcome.treeOutputs ++ [forest.bias]).foldl (fun total value => total + value) 0

variable {forest : Forest} {input : List Float}

/-! ## Trees -/

/-- The trees of a well-formed forest have no node in common. -/
theorem WellFormed.root_unique (h : forest.WellFormed) {root other index : Nat}
    (hRoot : root ∈ forest.roots) (hOther : other ∈ forest.roots)
    (hBelow : forest.Below root index) (hOtherBelow : forest.Below other index) :
    other = root := by
  induction hBelow with
  | root =>
      cases hOtherBelow with
      | root => rfl
      | child _ hEdge => exact absurd hRoot (h.rootless hEdge)
  | child _ hEdge ih =>
      -- A root is below no other node, and any other node is entered from one parent only.
      cases hOtherBelow with
      | root => exact absurd hOther (h.rootless hEdge)
      | child hParent hOtherEdge =>
          obtain ⟨rfl, _⟩ := h.unshared (h.rootless hEdge) hEdge hOtherEdge
          exact ih hParent

/-- A node is entered over one edge only. -/
theorem WellFormed.existsUnique_edge (h : forest.WellFormed) {index : Nat}
    (hIndex : index < forest.nodeCount) (hRoot : index ∉ forest.roots) :
    ∃! edge : Nat × Bool, forest.EdgeTo edge.1 edge.2 index := by
  obtain ⟨parent, decision, hEdge⟩ := (h.entered index hIndex).resolve_left hRoot
  refine ⟨(parent, decision), hEdge, fun ⟨other, choice⟩ hOther => ?_⟩
  obtain ⟨rfl, rfl⟩ := h.unshared hRoot hEdge hOther
  rfl

/-! ## Walks as paths -/

/-- The edges that some visits follow. -/
def edgesOf (visits : List Visit) : List (Nat × Bool) :=
  visits.map fun visit => (visit.node, visit.decision)

theorem mem_edgesOf_iff {visits : List Visit} {index : Nat} {decision : Bool} :
    (index, decision) ∈ edgesOf visits ↔
      ∃ visit ∈ visits, visit.node = index ∧ visit.decision = decision := by
  simp [edgesOf]

/-- A walk follows a path down to a leaf. -/
theorem Walk.descent {current : Nat} {visits : List Visit}
    (h : forest.Walk input current visits) : forest.Descent current (edgesOf visits) := by
  induction h with
  | leaf hMakes hTarget => exact .leaf hMakes.found hTarget
  | interior hMakes hTarget _ _ ih => exact .interior ⟨_, hMakes.found, hTarget⟩ ih

/-- A walk visits nodes below its first one only. -/
theorem Walk.below_of_mem {root current : Nat} {visits : List Visit}
    (h : forest.Walk input current visits) (hBelow : forest.Below root current)
    {visit : Visit} (hVisit : visit ∈ visits) : forest.Below root visit.node := by
  induction h with
  | leaf _ _ =>
      rw [List.mem_singleton.mp hVisit]
      exact hBelow
  | interior hMakes hTarget _ _ ih =>
      rcases List.mem_cons.mp hVisit with rfl | hMem
      · exact hBelow
      · exact ih (hBelow.child ⟨_, hMakes.found, hTarget⟩) hMem

/-- The value of a path is the sum of its predictions from the last one upwards. -/
theorem pathValue_append_singleton (leading : List Float) (last : Float) :
    pathValue (leading ++ [last]) =
      leading.foldr (fun prediction below => sequentialSum [prediction, below]) last := by
  induction leading with
  | nil => rfl
  | cons prediction leading ih =>
      rw [List.foldr_cons, ← ih]
      -- Something is left behind the first prediction, so it is added to its value.
      cases leading <;> rfl

/-- The predictions on a walk, and their sum. -/
theorem Walk.exists_predictions {current : Nat} {visits : List Visit}
    (h : forest.Walk input current visits) :
    ∃ leading last,
      List.Forall₂ (fun edge prediction => forest.Predicts input edge.1 edge.2 prediction)
        (edgesOf visits) (leading ++ [last]) ∧
      visitsValue visits =
        leading.foldr (fun prediction below => sequentialSum [prediction, below]) last := by
  have hPredictions : List.Forall₂
      (fun edge prediction => forest.Predicts input edge.1 edge.2 prediction) (edgesOf visits)
      (visits.map fun visit => visit.step.prediction) := by
    rw [edgesOf, List.forall₂_map_left_iff, List.forall₂_map_right_iff, List.forall₂_same]
    intro visit hVisit
    obtain ⟨node, hMakes⟩ := h.makes_of_mem hVisit
    exact ⟨node, hMakes.found, hMakes.prediction⟩
  -- There is a visit, so there is a last prediction to start from.
  have hNonempty : visits.map (fun visit => visit.step.prediction) ≠ [] := by
    obtain ⟨visit, hVisit, _⟩ := h.head
    exact List.ne_nil_of_mem (List.mem_map_of_mem hVisit)
  have hSplit := List.dropLast_append_getLast hNonempty
  refine ⟨_, _, hSplit.symm ▸ hPredictions, ?_⟩
  rw [← pathValue_append_singleton, hSplit]
  rfl

/-! ## The evaluation -/

/-- The mark of an edge of a well-formed forest tells whether it is taken. -/
theorem WellFormed.mark?_iff (h : forest.WellFormed) {walks : List (List Visit)}
    (hWalked : forest.Walked input walks) {index : Nat} (hIndex : index < forest.nodeCount)
    {decision : Bool} :
    mark? (forest.outcomeOf walks).edgeIndicator index decision = some true ↔
      forest.Taken input index decision := by
  have hNumbers : forest.Numbers index decision (2 * index + decision.toNat) :=
    h.numbers_iff.mpr ⟨hIndex, rfl⟩
  unfold mark?
  rw [hWalked.marked_iff (h.expandable.number_lt hNumbers)]
  constructor
  · rintro ⟨other, choice, hTaken, hOther⟩
    obtain ⟨rfl, rfl⟩ := h.expandable.owner_unique hNumbers hOther
    exact hTaken
  · exact fun hTaken => ⟨index, decision, hTaken, hNumbers⟩

/-- A tree of a well-formed forest has the value and the marks of its walk. -/
theorem WellFormed.treeMeets (h : forest.WellFormed) {walks : List (List Visit)}
    (hWalked : forest.Walked input walks) {root : Nat} (hRoot : root ∈ forest.roots)
    {visits : List Visit} (hWalk : forest.Walk input root visits) :
    forest.TreeMeets input (forest.outcomeOf walks).edgeIndicator root (visitsValue visits) := by
  obtain ⟨leading, last, hPredictions, hValue⟩ := hWalk.exists_predictions
  refine ⟨edgesOf visits, leading, last, hWalk.descent, fun index decision => ?_, hPredictions,
    hValue⟩
  rw [mem_edgesOf_iff]
  constructor
  · rintro ⟨visit, hVisit, rfl, rfl⟩
    have hTaken := hWalk.taken_of_mem (.root hRoot) hVisit
    exact ⟨hWalk.below_of_mem .root hVisit, (h.mark?_iff hWalked hTaken.lt_nodeCount).mpr hTaken⟩
  · rintro ⟨hBelow, hMark⟩
    have hIndex : index < forest.nodeCount := by
      unfold mark? at hMark
      have hBound := (List.getElem?_eq_some_iff.mp hMark).1
      rw [length_outcomeOf] at hBound
      omega
    -- The edge is on the walk of some tree, and the node belongs to this tree only.
    have hTaken := (h.mark?_iff hWalked hIndex).mp hMark
    obtain ⟨others, hOthers, visit, hVisit, rfl, rfl⟩ := hWalked.taken_iff.mp hTaken
    obtain ⟨other, hOther, hOtherWalk⟩ := hWalked.exists_walk hOthers
    have hSame := h.root_unique hRoot hOther hBelow (hOtherWalk.below_of_mem .root hVisit)
    subst hSame
    rw [hWalk.unique hOtherWalk] at hVisit
    exact ⟨visit, hVisit, rfl, rfl⟩

/-- Forests that the validator accepts, and that do not read the feature of the largest
index, are evaluated on all inputs of the required dimension, to the outcome that the
taken edges determine. -/
theorem evaluate_meets (forest : Forest) (input : List Float)
    (hValid : forest.validate = .ok ()) (hWords : forest.ReadsBelow Index.largest)
    (hWide : forest.requiredDimension ≤ input.length) :
    ∃ outcome, forest.evaluate input = .ok outcome ∧ forest.Meets input outcome := by
  have h := validate_eq_ok_iff.mp hValid
  obtain ⟨walks, hWalked⟩ := h.expandable.exists_walked
    ((requiredDimension_le_iff hWords).mp hWide)
  have hSize : (forest.outcomeOf walks).edgeIndicator.length = 2 * forest.nodeCount := by
    simp only [outcomeOf, List.length_map, List.length_range, edgeCount, edgesPerNode]
    omega
  refine ⟨forest.outcomeOf walks, evaluate_eq_ok_iff.mpr ⟨walks, hWalked, rfl⟩, ?_⟩
  -- The first fields are facts of the shape, the others of the walks.
  refine ⟨fun index hIndex hRoot => h.existsUnique_edge hIndex hRoot, hSize,
    fun index hIndex decision => h.mark?_iff hWalked hIndex, fun index hReached => ?_,
    fun index hIndex hReached decision => ?_,
    fun {tree other root otherRoot index} hTree hOther hBelow hOtherBelow => ?_, ?_, rfl⟩
  · obtain ⟨decision, hTaken⟩ := hWalked.exists_taken hReached
    have hMark := fun choice => @WellFormed.mark?_iff _ _ h _ hWalked _ hTaken.lt_nodeCount choice
    refine ⟨decision, (hMark decision).mpr hTaken, fun choice hChoice => ?_⟩
    exact hTaken.2.unique ((hMark choice).mp hChoice).2
  · have hBound : 2 * index + decision.toNat < (forest.outcomeOf walks).edgeIndicator.length := by
      have hBit := decision.toNat_le
      omega
    -- A mark is either set or not, and a set one would be that of a taken edge.
    have hNot : mark? (forest.outcomeOf walks).edgeIndicator index decision ≠ some true :=
      fun hMark => hReached ((h.mark?_iff hWalked hIndex).mp hMark).1
    unfold mark? at hNot ⊢
    rw [List.getElem?_eq_getElem hBound] at hNot ⊢
    simpa using hNot
  · have hSame := h.root_unique (List.mem_iff_getElem?.mpr ⟨tree, hTree⟩)
      (List.mem_iff_getElem?.mpr ⟨other, hOther⟩) hBelow hOtherBelow
    subst hSame
    have hBound := (List.getElem?_eq_some_iff.mp hOther).1
    exact (List.getElem?_inj hBound h.distinct).mp (hOther.trans hTree.symm)
  · show List.Forall₂ _ forest.roots (walks.map visitsValue)
    rw [List.forall₂_map_right_iff]
    have hWalks := hWalked.fromRoots
    rw [List.forall₂_iff_zip] at hWalks ⊢
    refine ⟨hWalks.1, fun {root visits} hPair => ?_⟩
    exact h.treeMeets hWalked (List.of_mem_zip hPair).1 (hWalks.2 hPair)

theorem evaluate_meets_twoTrees :
    twoTrees.validate = .ok () ∧ twoTrees.ReadsBelow Index.largest ∧
      twoTrees.requiredDimension ≤ [0.75, 2].length ∧ ∃ outcome, twoTrees.evaluate [0.75, 2] = .ok outcome ∧
        twoTrees.Meets [0.75, 2] outcome :=
  ⟨rfl, by decide, by decide,
    evaluate_meets twoTrees [0.75, 2] rfl (by decide) (by decide)⟩

end ForestGraph.Forest
