import ForestGraph.Proofs.Descents
import ForestGraph.Proofs.Splits

/-!
# Splits are local

A split changes the outcome of a forest in one place only.  The marks of the old edges
stay, and so do the values of all trees that do not take the edge which is split; the
one that does goes on along an edge of the new node.  Nothing is assumed of the input
but that the grown forest has an outcome for it.
-/

namespace ForestGraph

/-- What the new node contributes for a decision. -/
def Split.predictor (action : Split) (decision : Bool) : Predictor :=
  if decision then action.onTrue else action.onFalse

namespace Forest

/-- What a split of the leaf at edge `edge` does to one tree: its path does not take the
edge and is kept, or it does and goes on along an edge of the new node. -/
structure TreeGrows (forest grown : Forest) (action : Split) (input : List Float)
    (edge tree : Nat) (before after : Outcome) (path : List Step) : Prop where
  walked : forest.walk tree input = .ok path
  value : before.treeOutputs[tree]? = some (pathValue (path.map Step.prediction))
  kept : edge ∉ path.map Step.edge →
    grown.walk tree input = .ok path ∧ after.treeOutputs[tree]? = before.treeOutputs[tree]?
  extended : edge ∈ path.map Step.edge →
    ∃ decision prediction, action.rule.holds input = .ok decision ∧
      (action.predictor decision).predict input = .ok prediction ∧
      grown.walk tree input =
        .ok (path ++ [⟨2 * forest.nodeCount + decision.toNat, prediction⟩]) ∧
      after.treeOutputs[tree]? = some ((path.map Step.prediction).foldr
        (fun prediction below => sequentialSum [prediction, below]) prediction)

/-- What a split does to the outcome for an input. -/
structure OutcomeGrows (forest grown : Forest) (action : Split) (input : List Float)
    (before after : Outcome) : Prop where
  size : before.edgeIndicator.length = 2 * forest.nodeCount
  grownSize : after.edgeIndicator.length = 2 * forest.nodeCount + 2
  /-- The marks of the old edges are kept. -/
  marks : after.edgeIndicator.take (2 * forest.nodeCount) = before.edgeIndicator
  /-- Below a leaf, one new edge is marked if the edge to the leaf is, and no tree is added. -/
  child : ∀ parent position, action.place = .child parent position →
    (∀ decision, mark? after.edgeIndicator forest.nodeCount decision = some true ↔
      before.edgeIndicator[2 * parent + position]? = some true ∧
        action.rule.holds input = .ok decision) ∧
    before.treeOutputs.length = forest.treeCount ∧
    after.treeOutputs.length = forest.treeCount ∧
    ∀ tree < forest.treeCount, ∃ path,
      TreeGrows forest grown action input (2 * parent + position) tree before after path
  /-- A new root adds the tree whose only path is one of the new edges. -/
  root : action.place = .root → ∃ decision prediction,
    action.rule.holds input = .ok decision ∧
    (action.predictor decision).predict input = .ok prediction ∧
    after.treeOutputs = before.treeOutputs ++ [prediction] ∧
    ∀ choice, mark? after.edgeIndicator forest.nodeCount choice =
      some (decide (choice = decision))

variable {forest grown : Forest} {action : Split} {index : Nat} {input : List Float}

/-! ## Visits and walks -/

theorem Splits.roots_child (h : forest.Splits action grown index) {parent position : Nat}
    (hPlace : action.place = .child parent position) : grown.roots = forest.roots := by
  rw [h.roots, if_neg (by rw [hPlace]; exact Place.noConfusion)]

/-- The old visits are still made, and only the edge that is split leads elsewhere. -/
theorem Splits.exists_makes (h : forest.Splits action grown index) {visit : Visit}
    {node : Interior} (hMakes : forest.Makes input visit node) :
    ∃ after, grown.Makes input visit after ∧ (after.edge visit.decision).target =
      if action.place = .child visit.node visit.decision.toNat then .interior index
      else (node.edge visit.decision).target := by
  obtain ⟨after, hAfter, hRule, hFirst, hEdges⟩ := h.kept visit.node node hMakes.found
  refine ⟨after, ⟨hAfter, ?_, ?_, ?_⟩, (hEdges visit.decision).2⟩
  · rw [hRule]
    exact hMakes.rule
  · rw [(hEdges visit.decision).1]
    exact hMakes.prediction
  · rw [hFirst]
    exact hMakes.number

/-- Visits of old nodes were made before, too. -/
theorem Splits.exists_makes_old (h : forest.Splits action grown index) {visit : Visit}
    {after : Interior} (hMakes : grown.Makes input visit after)
    (hOld : visit.node < forest.nodeCount) :
    ∃ node, forest.Makes input visit node ∧ (after.edge visit.decision).target =
      if action.place = .child visit.node visit.decision.toNat then .interior index
      else (node.edge visit.decision).target := by
  have hNode : forest.nodes[visit.node]? = some forest.nodes[visit.node] :=
    Array.getElem?_eq_getElem hOld
  obtain ⟨same, hSame, hRule, hFirst, hEdges⟩ := h.kept visit.node _ hNode
  rw [hMakes.found] at hSame
  cases hSame
  obtain ⟨hPredictor, hTarget⟩ := hEdges visit.decision
  exact ⟨_, ⟨hNode, hRule ▸ hMakes.rule, hPredictor ▸ hMakes.prediction, hFirst ▸ hMakes.number⟩,
    hTarget⟩

/-- A walk in the grown forest starts like one in the old forest. -/
theorem Splits.exists_old_walk (h : forest.Splits action grown index)
    (hForest : forest.WellFormed) {current : Nat} {visits : List Visit}
    (hWalk : grown.Walk input current visits) (hCurrent : current < forest.nodeCount) :
    ∃ old, forest.Walk input current old := by
  induction hWalk with
  | @leaf visit _ hMakes hTarget =>
      obtain ⟨node, hOld, hKept⟩ := h.exists_makes_old hMakes hCurrent
      rw [hTarget] at hKept
      split at hKept
      · cases hKept
      · exact ⟨_, .leaf hOld hKept.symm⟩
  | @interior visit _ child _ hMakes hTarget hLater _ ih =>
      obtain ⟨node, hOld, hKept⟩ := h.exists_makes_old hMakes hCurrent
      -- At the edge that is split, the walk in the old forest ends.
      by_cases hPlace : action.place = .child visit.node visit.decision.toNat
      · obtain ⟨same, hSame, hLeaf⟩ := h.exists_leaf hPlace
        rw [hOld.found, Option.some.injEq] at hSame
        exact ⟨_, .leaf hOld (hSame ▸ hLeaf)⟩
      · rw [if_neg hPlace, hTarget] at hKept
        have hChild := h.child_lt hForest ⟨node, hOld.found, hKept.symm⟩
        obtain ⟨below, hBelow⟩ := ih (h.last ▸ hChild)
        exact ⟨_, .interior hOld hKept.symm hLater hBelow⟩

/-- Where the grown forest is walked, the old forest is. -/
theorem Splits.exists_walked (h : forest.Splits action grown index)
    (hForest : forest.WellFormed) {grownWalks : List (List Visit)}
    (hGrown : grown.Walked input grownWalks) : ∃ walks, forest.Walked input walks := by
  have hWalks : ∀ root ∈ forest.roots, ∃ visits, forest.Walk input root visits := by
    intro root hRoot
    obtain ⟨tree, hTree⟩ := List.mem_iff_getElem?.mp (h.mem_roots_iff.mpr (.inl hRoot))
    obtain ⟨_, _, hWalk⟩ := forall₂_getElem?_left hGrown.fromRoots hTree
    exact h.exists_old_walk hForest hWalk (h.last ▸ h.root_lt hForest hRoot)
  obtain ⟨walks, hFromRoots⟩ := exists_forall₂ hWalks
  exact ⟨walks, hForest.expandable.walked hFromRoots⟩

/-- If the new node is reached, the walk from there ends at one of its leaves. -/
theorem Splits.exists_walk (h : forest.Splits action grown index)
    {grownWalks : List (List Visit)} (hGrown : grown.Walked input grownWalks)
    (hReached : grown.Reached input index) :
    ∃ decision prediction, action.rule.holds input = .ok decision ∧
      (action.predictor decision).predict input = .ok prediction ∧
      grown.Walk input index
        [⟨index, decision, ⟨2 * index + decision.toNat, prediction⟩⟩] := by
  obtain ⟨visits, hVisits, visit, hVisit, hNode⟩ := hGrown.exists_visit hReached
  obtain ⟨_, _, hWalk⟩ := hGrown.exists_walk hVisits
  obtain ⟨node, hFound, hRule, hPrediction, _⟩ := hWalk.makes_of_mem hVisit
  rw [hNode, h.fresh, Option.some.injEq] at hFound
  subst hFound
  have hMakes : grown.Makes input ⟨index, visit.decision,
      ⟨2 * index + visit.decision.toNat, visit.step.prediction⟩⟩ _ :=
    ⟨h.fresh, hRule, hPrediction, rfl⟩
  generalize visit.decision = decision at *
  refine ⟨decision, _, hRule, ?_, .leaf hMakes (by cases decision <;> rfl)⟩
  cases decision <;> exact hPrediction

/-- A walk that does not take the edge that is split is kept. -/
theorem Splits.walk_of_avoids (h : forest.Splits action grown index) {current : Nat}
    {visits : List Visit} (hWalk : forest.Walk input current visits)
    (hAvoids : ∀ visit ∈ visits, action.place ≠ .child visit.node visit.decision.toNat) :
    grown.Walk input current visits := by
  induction hWalk with
  | leaf hMakes hTarget =>
      obtain ⟨after, hAfter, hKept⟩ := h.exists_makes hMakes
      rw [if_neg (hAvoids _ (List.mem_singleton_self _)), hTarget] at hKept
      exact .leaf hAfter hKept
  | interior hMakes hTarget hLater _ ih =>
      obtain ⟨after, hAfter, hKept⟩ := h.exists_makes hMakes
      obtain ⟨hFirst, hBelow⟩ := List.forall_mem_cons.mp hAvoids
      rw [if_neg hFirst, hTarget] at hKept
      exact .interior hAfter hKept hLater (ih hBelow)

/-- A walk that takes the edge that is split goes on from the new node. -/
theorem Splits.walk_of_takes (h : forest.Splits action grown index) {current : Nat}
    {visits below : List Visit} (hWalk : forest.Walk input current visits)
    (hTakes : ∃ visit ∈ visits, action.place = .child visit.node visit.decision.toNat)
    (hBelow : grown.Walk input index below) :
    grown.Walk input current (visits ++ below) := by
  induction hWalk with
  | leaf hMakes hTarget =>
      obtain ⟨after, hAfter, hChanged⟩ := h.exists_makes hMakes
      obtain ⟨visit, hVisit, hPlace⟩ := hTakes
      rw [List.mem_singleton.mp hVisit] at hPlace
      rw [if_pos hPlace] at hChanged
      have hEarlier := hMakes.lt_nodeCount
      rw [← h.last] at hEarlier
      exact .interior hAfter hChanged hEarlier hBelow
  | @interior visit node child later hMakes hTarget hLater hWalk ih =>
      obtain ⟨after, hAfter, hKept⟩ := h.exists_makes hMakes
      -- The edge that is split ends at a leaf, so it is not taken here.
      have hOther : action.place ≠ .child visit.node visit.decision.toNat := by
        intro hPlace
        obtain ⟨same, hSame, hLeaf⟩ := h.exists_leaf hPlace
        rw [hMakes.found, Option.some.injEq] at hSame
        rw [← hSame, hTarget] at hLeaf
        cases hLeaf
      rw [if_neg hOther, hTarget] at hKept
      obtain ⟨taken, hTaken, hPlace⟩ := hTakes
      have hMem : taken ∈ later := by
        rcases List.mem_cons.mp hTaken with rfl | hMem
        · exact absurd hPlace hOther
        · exact hMem
      exact .interior hAfter hKept hLater (ih ⟨taken, hMem, hPlace⟩)

/-! ## Marks -/

section Marks

variable (h : forest.Splits action grown index)

include h

theorem Splits.decides_iff {other : Nat} (hOther : other < forest.nodeCount) {decision : Bool} :
    grown.Decides input other decision ↔ forest.Decides input other decision := by
  have hNode : forest.nodes[other]? = some forest.nodes[other] := Array.getElem?_eq_getElem hOther
  obtain ⟨after, hAfter, hRule, _⟩ := h.kept other _ hNode
  simp only [Decides, hNode, hAfter, Option.some.injEq, exists_eq_left', hRule]

theorem Splits.decides_fresh_iff {decision : Bool} :
    grown.Decides input index decision ↔ action.rule.holds input = .ok decision := by
  simp only [Decides, h.fresh, Option.some.injEq, exists_eq_left']

/-- The old nodes are reached as before. -/
theorem Splits.reached_iff {other : Nat} (hOther : other < forest.nodeCount) :
    grown.Reached input other ↔ forest.Reached input other := by
  constructor
  · intro hReached
    induction hReached with
    | root hRoot =>
        rcases h.mem_roots_iff.mp hRoot with hOld | ⟨_, rfl⟩
        · exact .root hOld
        · rw [h.last] at hOther
          exact absurd hOther (Nat.lt_irrefl _)
    | child _ hDecides hEdge ih =>
        rcases h.edgeTo_iff.mp hEdge with hOld | ⟨_, rfl⟩
        · have hParent := hOld.lt_nodeCount
          exact .child (ih hParent) ((h.decides_iff hParent).mp hDecides) hOld
        · rw [h.last] at hOther
          exact absurd hOther (Nat.lt_irrefl _)
  · intro hReached
    induction hReached with
    | root hRoot => exact .root (h.mem_roots_iff.mpr (.inl hRoot))
    | child _ hDecides hEdge ih =>
        have hParent := hEdge.lt_nodeCount
        exact .child (ih hParent) ((h.decides_iff hParent).mpr hDecides)
          (h.edgeTo_iff.mpr (.inl hEdge))

theorem Splits.taken_iff {other : Nat} (hOther : other < forest.nodeCount) {decision : Bool} :
    grown.Taken input other decision ↔ forest.Taken input other decision :=
  and_congr (h.reached_iff hOther) (h.decides_iff hOther)

/-- The new node is reached as a root or over the edge that is split. -/
theorem Splits.reached_fresh_iff (hForest : forest.WellFormed) :
    grown.Reached input index ↔ action.place = .root ∨
      ∃ parent decision, action.place = .child parent decision.toNat ∧
        forest.Taken input parent decision := by
  constructor
  · intro hReached
    cases hReached with
    | root hRoot =>
        rcases h.mem_roots_iff.mp hRoot with hOld | ⟨hPlace, _⟩
        · exact absurd (h.root_lt hForest hOld) (Nat.lt_irrefl _)
        · exact .inl hPlace
    | @child parent decision _ hParent hDecides hEdge =>
        rcases h.edgeTo_iff.mp hEdge with hOld | ⟨hPlace, _⟩
        · exact absurd (h.child_lt hForest hOld) (Nat.lt_irrefl _)
        · obtain ⟨node, hNode, _⟩ := h.exists_leaf hPlace
          have hBound : parent < forest.nodeCount := (Array.getElem?_eq_some_iff.mp hNode).1
          exact .inr ⟨parent, decision, hPlace,
            (h.taken_iff hBound).mp ⟨hParent, hDecides⟩⟩
  · rintro (hPlace | ⟨parent, decision, hPlace, hTaken⟩)
    · exact .root (h.mem_roots_iff.mpr (.inr ⟨hPlace, rfl⟩))
    · obtain ⟨hReached, hDecides⟩ := (h.taken_iff hTaken.lt_nodeCount).mpr hTaken
      exact hReached.child hDecides (h.edgeTo_iff.mpr (.inr ⟨hPlace, rfl⟩))

/-- The new node below a leaf is reached over the edge that is split. -/
theorem Splits.reached_child_iff (hForest : forest.WellFormed) {parent : Nat} {decision : Bool}
    (hPlace : action.place = .child parent decision.toNat) :
    grown.Reached input index ↔ forest.Taken input parent decision := by
  rw [h.reached_fresh_iff hForest, hPlace]
  constructor
  · rintro (hRoot | ⟨other, choice, hSame, hTaken⟩)
    · cases hRoot
    · rw [Place.child.injEq, position_inj] at hSame
      obtain ⟨rfl, rfl⟩ := hSame
      exact hTaken
  · exact fun hTaken => .inr ⟨parent, decision, rfl, hTaken⟩

end Marks

/-- The marks of the old edges are kept. -/
theorem Splits.take_edgeIndicator (h : forest.Splits action grown index)
    (hForest : forest.WellFormed) {walks grownWalks : List (List Visit)}
    (hWalks : forest.Walked input walks) (hGrown : grown.Walked input grownWalks) :
    (grown.outcomeOf grownWalks).edgeIndicator.take (2 * forest.nodeCount) =
      (forest.outcomeOf walks).edgeIndicator := by
  have hSize := length_outcomeOf forest walks
  have hGrownSize := length_outcomeOf grown grownWalks
  rw [h.count] at hGrownSize
  refine List.ext_getElem (by rw [List.length_take]; omega) fun number hLeft hRight => ?_
  have hNumber : number < forest.edgeCount := by
    rw [edgeCount, edgesPerNode]
    omega
  obtain ⟨other, decision, hNumbers⟩ := hForest.expandable.numbered number hNumber
  obtain ⟨hOther, rfl⟩ := hForest.numbers_iff.mp hNumbers
  have hOtherGrown : other < grown.nodeCount := by
    rw [h.count]
    omega
  have hBefore : mark? (forest.outcomeOf walks).edgeIndicator other decision = some true ↔
      forest.Taken input other decision := hForest.mark?_iff hWalks hOther
  have hAfter : mark? (grown.outcomeOf grownWalks).edgeIndicator other decision = some true ↔
      grown.Taken input other decision := (h.wellFormed hForest).mark?_iff hGrown hOtherGrown
  -- Both marks tell whether the edge is taken, and it is taken in both forests or in none.
  rw [mark?, List.getElem?_eq_getElem (by omega), Option.some.injEq] at hBefore hAfter
  rw [List.getElem_take, Bool.eq_iff_iff, hBefore, hAfter, h.taken_iff hOther]

/-- A new edge is marked when the new node is reached and decides for it. -/
theorem Splits.mark?_fresh_iff (h : forest.Splits action grown index)
    (hForest : forest.WellFormed) {grownWalks : List (List Visit)}
    (hGrown : grown.Walked input grownWalks) {choice : Bool} :
    mark? (grown.outcomeOf grownWalks).edgeIndicator index choice = some true ↔
      grown.Reached input index ∧ action.rule.holds input = .ok choice := by
  have hIndex : index < grown.nodeCount := by
    rw [h.count, h.last]
    omega
  rw [(h.wellFormed hForest).mark?_iff hGrown hIndex, Taken, h.decides_fresh_iff]

/-- The marks of the new edges below a leaf that is split. -/
theorem Splits.mark?_child_iff (h : forest.Splits action grown index)
    (hForest : forest.WellFormed) {parent : Nat} {decision : Bool}
    (hPlace : action.place = .child parent decision.toNat) {walks grownWalks : List (List Visit)}
    (hWalks : forest.Walked input walks) (hGrown : grown.Walked input grownWalks)
    {choice : Bool} :
    mark? (grown.outcomeOf grownWalks).edgeIndicator index choice = some true ↔
      (forest.outcomeOf walks).edgeIndicator[2 * parent + decision.toNat]? = some true ∧
        action.rule.holds input = .ok choice := by
  obtain ⟨node, hNode, _⟩ := h.exists_leaf hPlace
  have hParent : parent < forest.nodeCount := (Array.getElem?_eq_some_iff.mp hNode).1
  have hMark : mark? (forest.outcomeOf walks).edgeIndicator parent decision = some true ↔
      forest.Taken input parent decision := hForest.mark?_iff hWalks hParent
  rw [mark?] at hMark
  rw [h.mark?_fresh_iff hForest hGrown, hMark, h.reached_child_iff hForest hPlace]

/-- The marks of the new edges below a new root. -/
theorem Splits.mark?_root (h : forest.Splits action grown index) (hForest : forest.WellFormed)
    (hPlace : action.place = .root) {grownWalks : List (List Visit)}
    (hGrown : grown.Walked input grownWalks) {decision : Bool}
    (hRule : action.rule.holds input = .ok decision) (choice : Bool) :
    mark? (grown.outcomeOf grownWalks).edgeIndicator index choice =
      some (decide (choice = decision)) := by
  have hReached : grown.Reached input index := (h.reached_fresh_iff hForest).mpr (.inl hPlace)
  have hMark : mark? (grown.outcomeOf grownWalks).edgeIndicator index choice = some true ↔
      grown.Reached input index ∧ action.rule.holds input = .ok choice :=
    h.mark?_fresh_iff hForest hGrown
  have hBound : 2 * index + choice.toNat < (grown.outcomeOf grownWalks).edgeIndicator.length := by
    have hBit := choice.toNat_lt
    rw [length_outcomeOf, h.count, h.last]
    omega
  rw [mark?, List.getElem?_eq_getElem hBound, Option.some.injEq] at hMark ⊢
  rw [Bool.eq_iff_iff, hMark, decide_eq_true_iff, hRule, Except.ok.injEq]
  exact ⟨fun hBoth => hBoth.2.symm, fun hSame => ⟨hReached, hSame.symm⟩⟩

/-! ## Trees -/

/-- The numbers of a well-formed forest tell which edges a walk takes. -/
theorem WellFormed.number_mem_iff (hForest : forest.WellFormed) {current : Nat}
    {visits : List Visit} (hWalk : forest.Walk input current visits) {parent : Nat}
    {decision : Bool} : 2 * parent + decision.toNat ∈ (visits.map Visit.step).map Step.edge ↔
      ∃ visit ∈ visits, parent = visit.node ∧ decision = visit.decision := by
  have hNumber : ∀ visit ∈ visits, visit.step.edge = 2 * visit.node + visit.decision.toNat := by
    intro visit hVisit
    obtain ⟨node, hMakes⟩ := hWalk.makes_of_mem hVisit
    rw [hMakes.number, hForest.numbered hMakes.found, edgesPerNode, Nat.mul_comm]
  simp only [List.map_map, List.mem_map, Function.comp_apply]
  refine exists_congr fun visit => and_congr_right fun hVisit => ?_
  rw [hNumber visit hVisit]
  constructor
  · intro hSame
    have hBit := decision.toNat_lt
    have hVisitBit := visit.decision.toNat_lt
    exact ⟨by omega, position_inj.mp (by omega)⟩
  · rintro ⟨rfl, rfl⟩
    rfl

/-- The value of a tree is that of the walk from its root. -/
theorem Walked.getElem?_treeOutputs {walks : List (List Visit)} (h : forest.Walked input walks)
    {tree root : Nat} (hRoot : forest.roots[tree]? = some root) {visits : List Visit}
    (hWalk : forest.Walk input root visits) :
    (forest.outcomeOf walks).treeOutputs[tree]? =
      some (pathValue ((visits.map Visit.step).map Step.prediction)) := by
  obtain ⟨others, hOthers, hOther⟩ := forall₂_getElem?_left h.fromRoots hRoot
  rw [pathValue_map_step, outcomeOf, List.getElem?_map, hOthers, hWalk.unique hOther]
  rfl

/-- What becomes of a tree when a leaf is split. -/
theorem Splits.exists_treeGrows (h : forest.Splits action grown index)
    (hForest : forest.WellFormed) {parent : Nat} {decision : Bool}
    (hPlace : action.place = .child parent decision.toNat) {walks grownWalks : List (List Visit)} (hWalks : forest.Walked input walks)
    (hGrown : grown.Walked input grownWalks) {tree : Nat} (hTree : tree < forest.treeCount) :
    ∃ path, TreeGrows forest grown action input (2 * parent + decision.toNat) tree
      (forest.outcomeOf walks) (grown.outcomeOf grownWalks) path := by
  have hRoot : forest.roots[tree]? = some forest.roots[tree] := List.getElem?_eq_getElem hTree
  have hGrownRoot : grown.roots[tree]? = some forest.roots[tree] := by
    rw [h.roots_child hPlace, hRoot]
  obtain ⟨visits, _, hWalk⟩ := forall₂_getElem?_left hWalks.fromRoots hRoot
  have hTakes : 2 * parent + decision.toNat ∈ (visits.map Visit.step).map Step.edge ↔
      ∃ visit ∈ visits, action.place = .child visit.node visit.decision.toNat := by
    rw [hForest.number_mem_iff hWalk]
    simp only [hPlace, Place.child.injEq, position_inj]
  refine ⟨visits.map Visit.step, walk_eq_ok_iff.mpr ⟨_, visits, hRoot, hWalk, rfl⟩,
    hWalks.getElem?_treeOutputs hRoot hWalk, fun hAvoids => ?_, fun hMem => ?_⟩
  · rw [hTakes] at hAvoids
    push Not at hAvoids
    have hKept := h.walk_of_avoids hWalk hAvoids
    refine ⟨walk_eq_ok_iff.mpr ⟨_, visits, hGrownRoot, hKept, rfl⟩, ?_⟩
    rw [hWalks.getElem?_treeOutputs hRoot hWalk, hGrown.getElem?_treeOutputs hGrownRoot hKept]
  · obtain ⟨visit, hVisit, hSame⟩ := hTakes.mp hMem
    have hReached : grown.Reached input index := (h.reached_fresh_iff hForest).mpr (.inr
      ⟨_, _, hSame, hWalk.taken_of_mem (.root (List.mem_of_getElem? hRoot)) hVisit⟩)
    obtain ⟨choice, prediction, hRule, hPrediction, hFresh⟩ := h.exists_walk hGrown hReached
    have hLonger := h.walk_of_takes hWalk (hTakes.mp hMem) hFresh
    refine ⟨choice, prediction, hRule, hPrediction,
      walk_eq_ok_iff.mpr ⟨_, _, hGrownRoot, hLonger, ?_⟩, ?_⟩
    · rw [List.map_append, h.last]
      rfl
    · rw [hGrown.getElem?_treeOutputs hGrownRoot hLonger, List.map_append, List.map_append,
        ← pathValue_append_singleton]
      rfl

/-- A new root adds a walk behind those from the old roots. -/
theorem Splits.treeOutputs_root (h : forest.Splits action grown index)
    (hForest : forest.WellFormed) (hPlace : action.place = .root)
    {walks grownWalks : List (List Visit)}
    (hWalks : forest.Walked input walks) (hGrown : grown.Walked input grownWalks)
    {visit : Visit} (hFresh : grown.Walk input index [visit]) :
    (grown.outcomeOf grownWalks).treeOutputs =
      (forest.outcomeOf walks).treeOutputs ++ [visit.step.prediction] := by
  have hRoots : grown.roots = forest.roots ++ [index] := by
    rw [h.roots, if_pos hPlace]
  have hOld : List.Forall₂ (grown.Walk input) forest.roots walks :=
    hWalks.fromRoots.imp fun _ _ hWalk =>
      h.walk_of_avoids hWalk fun _ _ hChild => by rw [hPlace] at hChild; cases hChild
  have hBoth : List.Forall₂ (grown.Walk input) grown.roots (walks ++ [[visit]]) := by
    rw [hRoots]
    exact List.rel_append hOld (.cons hFresh .nil)
  rw [← hGrown.unique ((h.wellFormed hForest).expandable.walked hBoth), outcomeOf, outcomeOf,
    List.map_append]
  rfl

/-! ## Outcomes -/

/-- The outcomes before and after a split of a well-formed forest. -/
theorem Splits.outcomeGrows (h : forest.Splits action grown index) (hForest : forest.WellFormed)
    {walks grownWalks : List (List Visit)} (hWalks : forest.Walked input walks)
    (hGrown : grown.Walked input grownWalks) :
    OutcomeGrows forest grown action input (forest.outcomeOf walks)
      (grown.outcomeOf grownWalks) := by
  have hGrownSize := length_outcomeOf grown grownWalks
  rw [h.count] at hGrownSize
  refine ⟨length_outcomeOf forest walks, by omega, h.take_edgeIndicator hForest hWalks hGrown,
    fun parent position hPlace => ?_, fun hPlace => ?_⟩
  · obtain ⟨_, decision, _, rfl, _⟩ := h.wasLeaf _ _ hPlace
    refine ⟨fun choice => ?_, ?_, ?_, fun tree hTree =>
      h.exists_treeGrows hForest hPlace hWalks hGrown hTree⟩
    · rw [← h.last]
      exact h.mark?_child_iff hForest hPlace hWalks hGrown
    · rw [outcomeOf, List.length_map, ← hWalks.fromRoots.length_eq, treeCount]
    · rw [outcomeOf, List.length_map, ← hGrown.fromRoots.length_eq, h.roots_child hPlace,
        treeCount]
  · have hReached : grown.Reached input index := (h.reached_fresh_iff hForest).mpr (.inl hPlace)
    obtain ⟨decision, prediction, hRule, hPrediction, hFresh⟩ := h.exists_walk hGrown hReached
    refine ⟨decision, prediction, hRule, hPrediction,
      h.treeOutputs_root hForest hPlace hWalks hGrown hFresh, fun choice => ?_⟩
    rw [← h.last]
    exact h.mark?_root hForest hPlace hGrown hRule choice

/-- A split of a valid forest changes its outcome in one place: the old marks are kept,
and so is the value of every tree that does not take the edge which is split.  Both forests
have an outcome wherever the grown one does, which is on all inputs of the required
dimension unless it reads the feature of the largest index. -/
theorem evaluate_split (forest grown : Forest) (action : Split) (index : Nat)
    (input : List Float) (hValid : forest.validate = .ok ())
    (hSplit : forest.split action = .ok (grown, index)) :
    (∀ after, grown.evaluate input = .ok after →
      ∃ before, forest.evaluate input = .ok before ∧
        OutcomeGrows forest grown action input before after) ∧
    (grown.ReadsBelow Index.largest → grown.requiredDimension ≤ input.length →
      ∃ after, grown.evaluate input = .ok after) := by
  have hForest := validate_eq_ok_iff.mp hValid
  have h := splits_of_split hSplit
  have hShape := h.wellFormed hForest
  refine ⟨fun after hAfter => ?_, fun hWords hWide => ?_⟩
  · obtain ⟨grownWalks, hGrown, rfl⟩ := evaluate_eq_ok_iff.mp hAfter
    obtain ⟨walks, hWalks⟩ := h.exists_walked hForest hGrown
    exact ⟨_, evaluate_eq_ok_iff.mpr ⟨walks, hWalks, rfl⟩,
      h.outcomeGrows hForest hWalks hGrown⟩
  · obtain ⟨walks, hWalked⟩ :=
      hShape.expandable.exists_walked ((requiredDimension_le_iff hWords).mp hWide)
    exact ⟨_, evaluate_eq_ok_iff.mpr ⟨walks, hWalked, rfl⟩⟩

/-- The leaf that the first tree ends at is split, so this tree goes on from there. -/
theorem evaluate_split_twoTrees : ∃ grown before after,
    twoTrees.validate = .ok () ∧
      twoTrees.split ⟨.child 2 1, .threshold 0 1, .constant 7, .constant 8⟩ = .ok (grown, 3) ∧
      grown.ReadsBelow Index.largest ∧ grown.requiredDimension ≤ [0.75, 2].length ∧
      twoTrees.evaluate [0.75, 2] = .ok before ∧ grown.evaluate [0.75, 2] = .ok after ∧
      OutcomeGrows twoTrees grown ⟨.child 2 1, .threshold 0 1, .constant 7, .constant 8⟩
        [0.75, 2] before after := by
  obtain ⟨hGrows, hExists⟩ := evaluate_split twoTrees _
    ⟨.child 2 1, .threshold 0 1, .constant 7, .constant 8⟩ 3 [0.75, 2] rfl rfl
  obtain ⟨after, hAfter⟩ := hExists (by decide) (by decide)
  obtain ⟨before, hBefore, hOutcome⟩ := hGrows after hAfter
  exact ⟨_, before, after, rfl, rfl, by decide, by decide, hBefore, hAfter, hOutcome⟩

/-- A first root that reads the feature of the largest index: the required dimension of the
grown forest is that of an empty input, for which there is no outcome. -/
theorem evaluate_split_farSighted :
    empty.validate = .ok () ∧
      empty.split ⟨.root, .threshold Index.largest 0, .constant 1, .constant 2⟩ =
        .ok (farSighted, 0) ∧
      farSighted.requiredDimension ≤ ([] : List Float).length ∧
      ¬ ∃ after, farSighted.evaluate [] = .ok after := by
  refine ⟨rfl, rfl, by decide, fun ⟨after, hAfter⟩ => ?_⟩
  have hError : farSighted.evaluate [] = .error (.outOfBounds Index.largest 0) := rfl
  rw [hError] at hAfter
  cases hAfter

end Forest

end ForestGraph
