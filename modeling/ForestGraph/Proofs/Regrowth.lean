import ForestGraph.Proofs.Descents
import ForestGraph.Proofs.Splits

/-!
# Growing a forest from nothing

Splits of the empty forest give the valid forests whose roots are in order, and no
others.  The splits that give such a forest are known: one for each node, in the order of
the nodes, at the place that the forest has for it.  While they are made, the forest is cut
off behind the nodes that are there, with leaves where the others will be.
-/

namespace ForestGraph

/-! ## Nodes of a forest that is cut off -/

/-- Where an edge leads if only the first nodes are there. -/
def Target.cutAt (count : Nat) : Target → Target
  | leaf => leaf
  | interior node => if node < count then .interior node else .leaf

/-- A node with edges to the first nodes only. -/
def Interior.cutAt (count : Nat) (node : Interior) : Interior :=
  { node with
    onFalse := { node.onFalse with target := node.onFalse.target.cutAt count }
    onTrue := { node.onTrue with target := node.onTrue.target.cutAt count } }

@[simp] theorem Interior.rule_cutAt (count : Nat) (node : Interior) :
    (node.cutAt count).rule = node.rule := rfl

@[simp] theorem Interior.firstEdge_cutAt (count : Nat) (node : Interior) :
    (node.cutAt count).firstEdge = node.firstEdge := rfl

@[simp] theorem Interior.edge_cutAt (count : Nat) (node : Interior) (decision : Bool) :
    (node.cutAt count).edge decision =
      ⟨(node.edge decision).predictor, (node.edge decision).target.cutAt count⟩ := by
  cases decision <;> rfl

/-- One node more is one target more. -/
theorem Target.cutAt_succ (target : Target) (count : Nat) :
    target.cutAt (count + 1) =
      if target = .interior count then .interior count else target.cutAt count := by
  cases target with
  | leaf => rfl
  | interior node =>
      simp only [cutAt, interior.injEq]
      by_cases hNew : node = count
      · rw [if_pos hNew, if_pos (by omega), hNew]
      · rw [if_neg hNew]
        exact if_congr (by omega) rfl rfl

/-- A node is known by its rule, the number of its edges, and the edges. -/
theorem Interior.eq_of_edges {node other : Interior} (hRule : other.rule = node.rule)
    (hFirst : other.firstEdge = node.firstEdge)
    (hEdges : ∀ decision, other.edge decision = node.edge decision) : other = node := by
  obtain ⟨rule, onFalse, onTrue, firstEdge⟩ := node
  obtain ⟨otherRule, otherFalse, otherTrue, otherFirst⟩ := other
  have hFalse : otherFalse = onFalse := hEdges false
  have hTrue : otherTrue = onTrue := hEdges true
  rw [Interior.mk.injEq]
  exact ⟨hRule, hFalse, hTrue, hFirst⟩

/-- Nothing is cut off from a node whose edges stay below the bound. -/
theorem Interior.cutAt_eq_self {node : Interior} {count : Nat}
    (h : ∀ decision child, (node.edge decision).target = .interior child → child < count) :
    node.cutAt count = node := by
  refine eq_of_edges rfl rfl fun decision => ?_
  have hTarget : (node.edge decision).target.cutAt count = (node.edge decision).target := by
    cases hCase : (node.edge decision).target with
    | leaf => rfl
    | interior child => rw [Target.cutAt, if_pos (h decision child hCase)]
  rw [edge_cutAt, hTarget]

namespace Forest

/-- Splits that are made one after the other, and that all succeed. -/
def splitAll (forest : Forest) (actions : List Split) : Except Error Forest :=
  actions.foldlM
    (fun half action => do
      let (grown, _) ← half.split action
      return grown)
    forest

/-- The first nodes of a forest, with leaves in place of the others, and with no bias. -/
def cutAt (forest : Forest) (count : Nat) : Forest where
  nodes := (forest.nodes.take count).map (Interior.cutAt count)
  roots := forest.roots.filter (· < count)
  bias := 0

/-- The split that adds the node with an index to the nodes before it: as a root if it is
one, and at the only edge that leads to it if it is none. -/
structure Introduces (forest : Forest) (index : Nat) (action : Split) : Prop where
  node : ∃ node, forest.nodes[index]? = some node ∧ action.rule = node.rule ∧
    action.onFalse = node.onFalse.predictor ∧ action.onTrue = node.onTrue.predictor
  root : index ∈ forest.roots → action.place = .root
  child : index ∉ forest.roots → ∃ parent decision,
    action.place = .child parent decision.toNat ∧ forest.EdgeTo parent decision index ∧
    ∀ other choice, forest.EdgeTo other choice index → other = parent ∧ choice = decision

/-- Splits that add all nodes of a forest in their order. -/
structure Replays (forest : Forest) (actions : List Split) : Prop where
  length : actions.length = forest.nodeCount
  introduces : ∀ index action, actions[index]? = some action → forest.Introduces index action

variable {forest grown other : Forest} {action : Split} {actions : List Split}
  {index count : Nat}

/-! ## What a split is determined by -/

/-- A split gives one forest only. -/
theorem Splits.unique (h : forest.Splits action grown index) {otherIndex : Nat}
    (hOther : forest.Splits action other otherIndex) : other = grown ∧ otherIndex = index := by
  have hIndex : otherIndex = index := hOther.last.trans h.last.symm
  subst hIndex
  have hNodes : other.nodes = grown.nodes := by
    refine Array.ext (hOther.count.trans h.count.symm) fun position hPosition hSame => ?_
    have hGrown := Array.getElem?_eq_getElem hSame
    have hOtherNode := Array.getElem?_eq_getElem hPosition
    rcases h.exists_node_or_eq hSame with ⟨node, hNode⟩ | rfl
    · obtain ⟨after, hAfter, hRule, hFirst, hEdges⟩ := h.kept position node hNode
      obtain ⟨later, hLater, hLaterRule, hLaterFirst, hLaterEdges⟩ :=
        hOther.kept position node hNode
      rw [hAfter, Option.some.injEq] at hGrown
      rw [hLater, Option.some.injEq] at hOtherNode
      rw [← hGrown, ← hOtherNode]
      refine Interior.eq_of_edges (hLaterRule.trans hRule.symm)
        (hLaterFirst.trans hFirst.symm) fun decision => ?_
      rw [Edge.mk.injEq]
      exact ⟨(hLaterEdges decision).1.trans (hEdges decision).1.symm,
        (hLaterEdges decision).2.trans (hEdges decision).2.symm⟩
    · rw [h.fresh, Option.some.injEq] at hGrown
      rw [hOther.fresh, Option.some.injEq] at hOtherNode
      exact hOtherNode.symm.trans hGrown
  refine ⟨?_, rfl⟩
  rw [Forest.mk.injEq]
  exact ⟨hNodes, hOther.roots.trans h.roots.symm, hOther.bias.trans h.bias.symm⟩

/-- A split succeeds exactly if it can do what it should, and then it does. -/
theorem split_eq_ok_iff_splits :
    forest.split action = .ok (grown, index) ↔ forest.Splits action grown index := by
  refine ⟨splits_of_split, fun h => ?_⟩
  have hExists : ∃ result, forest.split action = .ok result := by
    obtain ⟨place, rule, onFalse, onTrue⟩ := action
    cases place with
    | root => exact ⟨_, split_root forest rule onFalse onTrue⟩
    | child parent position =>
        obtain ⟨node, decision, hNode, hPosition, hLeaf⟩ := h.wasLeaf _ _ rfl
        exact ⟨_, split_child_eq_ok_iff.mpr ⟨node, decision, hNode, hPosition, hLeaf, rfl⟩⟩
  obtain ⟨⟨result, resultIndex⟩, hResult⟩ := hExists
  obtain ⟨rfl, rfl⟩ := h.unique (splits_of_split hResult)
  exact hResult

/-! ## Forests that are cut off -/

@[simp] theorem cutAt_zero (forest : Forest) : forest.cutAt 0 = empty := by
  simp [cutAt, empty]

theorem nodeCount_cutAt (h : count ≤ forest.nodeCount) : (forest.cutAt count).nodeCount = count := by
  unfold nodeCount at h ⊢
  simp [cutAt]
  omega

theorem getElem?_cutAt (h : index < count) :
    (forest.cutAt count).nodes[index]? = (forest.nodes[index]?).map (Interior.cutAt count) := by
  unfold cutAt
  rw [Array.getElem?_map, Array.take, Array.getElem?_extract, Nat.zero_add]
  by_cases hBound : index < forest.nodes.size
  · rw [if_pos (by omega)]
  · rw [Array.getElem?_eq_none (Nat.le_of_not_lt hBound), ite_self]

/-- What is left of a node. -/
theorem getElem?_cutAt_eq_some_iff {after : Interior} (h : count ≤ forest.nodeCount) :
    (forest.cutAt count).nodes[index]? = some after ↔
      index < count ∧ ∃ node, forest.nodes[index]? = some node ∧ after = node.cutAt count := by
  by_cases hBound : index < count
  · rw [getElem?_cutAt hBound, Option.map_eq_some_iff]
    simp only [hBound, true_and, eq_comm]
  · have hNone : (forest.cutAt count).nodes[index]? = none := by
      refine Array.getElem?_eq_none ?_
      have hSize := nodeCount_cutAt h
      unfold nodeCount at hSize
      omega
    simp [hNone, hBound]

/-- With all nodes there, nothing but the bias is missing. -/
theorem WellFormed.cutAt_nodeCount (h : forest.WellFormed) :
    forest.cutAt forest.nodeCount = ⟨forest.nodes, forest.roots, 0⟩ := by
  have hNodes : (forest.nodes.take forest.nodeCount).map (Interior.cutAt forest.nodeCount) =
      forest.nodes := by
    refine Array.ext_getElem? fun index => ?_
    rw [nodeCount, Array.take, Array.extract_size, Array.getElem?_map]
    cases hNode : forest.nodes[index]? with
    | none => rfl
    | some node =>
        exact congrArg some (Interior.cutAt_eq_self fun decision child hTarget =>
          (h.descends ⟨node, hNode, hTarget⟩).2)
  have hRoots : forest.roots.filter (· < forest.nodeCount) = forest.roots :=
    List.filter_eq_self.mpr fun root hRoot => decide_eq_true (h.rooted root hRoot)
  unfold cutAt
  rw [hNodes, hRoots]

/-! ## Each split of a replay -/

namespace Introduces

variable (h : forest.Introduces index action)

include h

theorem lt_nodeCount : index < forest.nodeCount := by
  obtain ⟨node, hNode, _⟩ := h.node
  exact (Array.getElem?_eq_some_iff.mp hNode).1

theorem place_eq_root_iff : action.place = .root ↔ index ∈ forest.roots := by
  refine ⟨fun hPlace => ?_, h.root⟩
  by_contra hRoot
  obtain ⟨parent, decision, hChild, _⟩ := h.child hRoot
  rw [hPlace] at hChild
  cases hChild

theorem place_eq_child_iff (hForest : forest.WellFormed) {parent : Nat} {decision : Bool} :
    action.place = .child parent decision.toNat ↔ forest.EdgeTo parent decision index := by
  constructor
  · intro hPlace
    have hRoot : index ∉ forest.roots := fun hRoot => by
      rw [h.root hRoot] at hPlace
      cases hPlace
    obtain ⟨other, choice, hChild, hEdge, _⟩ := h.child hRoot
    rw [hPlace, Place.child.injEq, position_inj] at hChild
    rwa [hChild.1, hChild.2]
  · intro hEdge
    obtain ⟨other, choice, hChild, _, hUnique⟩ := h.child (hForest.rootless hEdge)
    obtain ⟨rfl, rfl⟩ := hUnique _ _ hEdge
    exact hChild

/-- One split adds a node. -/
theorem unique {second : Split} (hSecond : forest.Introduces index second) : second = action := by
  obtain ⟨node, hNode, hRule, hFalse, hTrue⟩ := h.node
  obtain ⟨same, hSame, hSecondRule, hSecondFalse, hSecondTrue⟩ := hSecond.node
  rw [hNode, Option.some.injEq] at hSame
  subst hSame
  have hPlace : second.place = action.place := by
    by_cases hRoot : index ∈ forest.roots
    · rw [h.root hRoot, hSecond.root hRoot]
    · obtain ⟨parent, decision, hChild, hEdge, _⟩ := h.child hRoot
      obtain ⟨other, choice, hOther, _, hUnique⟩ := hSecond.child hRoot
      obtain ⟨rfl, rfl⟩ := hUnique _ _ hEdge
      rw [hChild, hOther]
  obtain ⟨place, rule, onFalse, onTrue⟩ := action
  obtain ⟨secondPlace, secondRule, secondFalse, secondTrue⟩ := second
  rw [Split.mk.injEq]
  exact ⟨hPlace, hSecondRule.trans hRule.symm, hSecondFalse.trans hFalse.symm,
    hSecondTrue.trans hTrue.symm⟩

end Introduces

/-- Every node is added by some split. -/
theorem WellFormed.exists_introduces (h : forest.WellFormed) (hIndex : index < forest.nodeCount) :
    ∃ action, forest.Introduces index action := by
  have hNode : forest.nodes[index]? = some forest.nodes[index] := Array.getElem?_eq_getElem hIndex
  generalize forest.nodes[index] = node at hNode
  by_cases hRoot : index ∈ forest.roots
  · exact ⟨⟨.root, node.rule, node.onFalse.predictor, node.onTrue.predictor⟩,
      ⟨node, hNode, rfl, rfl, rfl⟩, fun _ => rfl, fun hOther => absurd hRoot hOther⟩
  · obtain ⟨parent, decision, hEdge⟩ := (h.entered index hIndex).resolve_left hRoot
    exact ⟨⟨.child parent decision.toNat, node.rule, node.onFalse.predictor,
        node.onTrue.predictor⟩,
      ⟨node, hNode, rfl, rfl, rfl⟩, fun hOther => absurd hOther hRoot,
      fun _ => ⟨parent, decision, rfl, hEdge, fun _ _ hOther => h.unshared hRoot hEdge hOther⟩⟩

theorem filter_lt_eq_nil {roots : List Nat} (h : ∀ root ∈ roots, count ≤ root) :
    roots.filter (· < count) = [] :=
  List.filter_eq_nil_iff.mpr fun root hRoot => by
    have hBound := h root hRoot
    simpa using hBound

/-- Of an ascending list, one number more comes last, if it is there. -/
theorem filter_lt_succ {roots : List Nat} (h : roots.Pairwise (· < ·)) (count : Nat) :
    roots.filter (· < count + 1) =
      if count ∈ roots then roots.filter (· < count) ++ [count] else roots.filter (· < count) := by
  induction roots with
  | nil => rfl
  | cons root later ih =>
      obtain ⟨hFirst, hLater⟩ := List.pairwise_cons.mp h
      have hNotLess : count ≤ root → (root :: later).filter (· < count) = [] := by
        intro hBound
        refine filter_lt_eq_nil (List.forall_mem_cons.mpr ⟨hBound, fun other hOther => ?_⟩)
        exact hBound.trans (hFirst other hOther).le
      rcases Nat.lt_trichotomy root count with hLess | rfl | hGreater
      · have hMem : count ∈ root :: later ↔ count ∈ later := by
          rw [List.mem_cons, or_iff_right (Nat.ne_of_gt hLess)]
        have hKept : root < count + 1 := by omega
        simp only [List.filter_cons, hKept, hLess, decide_true, if_true, ih hLater, hMem]
        split <;> rfl
      · have hBehind : later.filter (· < root + 1) = [] := filter_lt_eq_nil hFirst
        rw [if_pos List.mem_cons_self, hNotLess (Nat.le_refl _)]
        simp only [List.filter_cons, Nat.lt_add_one, decide_true, if_true, hBehind,
          List.nil_append]
      · have hAbsent : count ∉ root :: later := by
          intro hMem
          rcases List.mem_cons.mp hMem with rfl | hMem
          · exact Nat.lt_irrefl _ hGreater
          · exact Nat.lt_asymm hGreater (hFirst _ hMem)
        rw [if_neg hAbsent, hNotLess hGreater.le]
        refine filter_lt_eq_nil (List.forall_mem_cons.mpr ⟨hGreater, fun other hOther => ?_⟩)
        exact hGreater.trans (hFirst other hOther)

/-- The split that adds a node takes a forest that is cut off before it to one that is cut
off behind it. -/
theorem Introduces.splits_cutAt (h : forest.Introduces index action)
    (hForest : forest.WellFormed) (hAscending : forest.roots.Pairwise (· < ·)) :
    (forest.cutAt index).Splits action (forest.cutAt (index + 1)) index where
  last := (nodeCount_cutAt h.lt_nodeCount.le).symm
  count := by rw [nodeCount_cutAt h.lt_nodeCount.le, nodeCount_cutAt h.lt_nodeCount]
  fresh := by
    obtain ⟨node, hNode, hRule, hFalse, hTrue⟩ := h.node
    rw [getElem?_cutAt (Nat.lt_succ_self index), hNode, Option.map_some, Option.some.injEq]
    refine Interior.eq_of_edges hRule.symm ?_ fun decision => ?_
    · rw [Interior.firstEdge_cutAt, hForest.numbered hNode, edgesPerNode, Nat.mul_comm]
    · have hLeaf : (node.edge decision).target.cutAt (index + 1) = .leaf := by
        cases hTarget : (node.edge decision).target with
        | leaf => rfl
        | interior child =>
            have hLater := (hForest.descends ⟨node, hNode, hTarget⟩).1
            rw [Target.cutAt, if_neg (by omega)]
      rw [Interior.edge_cutAt, hLeaf]
      cases decision with
      | false => rw [hFalse]; rfl
      | true => rw [hTrue]; rfl
  wasLeaf parent position hPlace := by
    have hRoot : index ∉ forest.roots := fun hMem => by
      rw [h.root hMem] at hPlace
      cases hPlace
    obtain ⟨other, decision, hChild, hEdge, _⟩ := h.child hRoot
    obtain ⟨rfl, rfl⟩ := Place.child.inj (hPlace.symm.trans hChild)
    have hBefore := (hForest.descends hEdge).1
    obtain ⟨node, hNode, hTarget⟩ := hEdge
    refine ⟨node.cutAt index, decision, ?_, rfl, ?_⟩
    · rw [getElem?_cutAt hBefore, hNode, Option.map_some]
    · rw [Interior.edge_cutAt, hTarget, Target.cutAt, if_neg (Nat.lt_irrefl index)]
  kept other node hNode := by
    obtain ⟨hOther, original, hOriginal, rfl⟩ :=
      (getElem?_cutAt_eq_some_iff h.lt_nodeCount.le).mp hNode
    refine ⟨original.cutAt (index + 1), ?_, rfl, rfl, fun decision => ⟨by simp, ?_⟩⟩
    · rw [getElem?_cutAt (by omega), hOriginal, Option.map_some]
    · have hPlace : action.place = .child other decision.toNat ↔
          (original.edge decision).target = .interior index := by
        rw [h.place_eq_child_iff hForest]
        constructor
        · rintro ⟨same, hSame, hTarget⟩
          rw [hOriginal, Option.some.injEq] at hSame
          rwa [hSame]
        · exact fun hTarget => ⟨original, hOriginal, hTarget⟩
      simp only [Interior.edge_cutAt, Target.cutAt_succ, hPlace]
  roots := by
    have hRoots := filter_lt_succ hAscending index
    simp only [← h.place_eq_root_iff] at hRoots
    exact hRoots
  bias := rfl

/-! ## Runs of splits -/

theorem splitAll_append_eq_ok_iff {later : List Split} :
    forest.splitAll (actions ++ later) = .ok grown ↔
      ∃ half, forest.splitAll actions = .ok half ∧ half.splitAll later = .ok grown := by
  unfold splitAll
  rw [List.foldlM_append, except_bind_eq_ok_iff]

theorem splitAll_singleton_eq_ok_iff :
    forest.splitAll [action] = .ok grown ↔ ∃ index, forest.split action = .ok (grown, index) := by
  simp only [splitAll, List.foldlM_cons, List.foldlM_nil, except_bind_eq_ok_iff,
    except_pure_eq_ok_iff]
  constructor
  · rintro ⟨_, ⟨⟨result, index⟩, hSplit, rfl⟩, rfl⟩
    exact ⟨index, hSplit⟩
  · rintro ⟨index, hSplit⟩
    exact ⟨grown, ⟨_, hSplit, rfl⟩, rfl⟩

/-- The first splits of a replay give the forest that is cut off behind their nodes. -/
theorem Replays.splitAll_take (h : forest.Replays actions) (hForest : forest.WellFormed)
    (hAscending : forest.roots.Pairwise (· < ·)) (hCount : count ≤ forest.nodeCount) :
    empty.splitAll (actions.take count) = .ok (forest.cutAt count) := by
  induction count with
  | zero => simp [splitAll, pure, Except.pure]
  | succ count ih =>
      have hBound : count < actions.length := by
        have hLength := h.length
        omega
      have hAction : actions[count]? = some actions[count] := List.getElem?_eq_getElem hBound
      rw [List.take_add_one, hAction, Option.toList_some, splitAll_append_eq_ok_iff]
      have hSplits := (h.introduces count _ hAction).splits_cutAt hForest hAscending
      exact ⟨_, ih (Nat.le_of_succ_le hCount),
        splitAll_singleton_eq_ok_iff.mpr ⟨count, split_eq_ok_iff_splits.mpr hSplits⟩⟩

/-- What holds of some entries and of the one behind them holds of all. -/
theorem forall_getElem?_concat {α : Type} {property : Nat → α → Prop} {entries : List α}
    {last : α} (h : ∀ index entry, entries[index]? = some entry → property index entry)
    (hLast : property entries.length last) :
    ∀ index entry, (entries ++ [last])[index]? = some entry → property index entry := by
  intro index entry hEntry
  rcases Nat.lt_trichotomy index entries.length with hOld | rfl | hBehind
  · rw [List.getElem?_append_left hOld] at hEntry
    exact h index entry hEntry
  · rw [List.getElem?_concat_length, Option.some.injEq] at hEntry
    exact hEntry ▸ hLast
  · rw [List.getElem?_eq_none (by simp; omega)] at hEntry
    cases hEntry

/-- A valid forest has a replay. -/
theorem WellFormed.exists_replays (h : forest.WellFormed) :
    ∃ actions, forest.Replays actions := by
  have hFirst : ∀ count ≤ forest.nodeCount, ∃ actions : List Split, actions.length = count ∧
      ∀ index action, actions[index]? = some action → forest.Introduces index action := by
    intro count hCount
    induction count with
    | zero => exact ⟨[], rfl, by simp⟩
    | succ count ih =>
        obtain ⟨actions, hLength, hActions⟩ := ih (Nat.le_of_succ_le hCount)
        obtain ⟨last, hLast⟩ := h.exists_introduces hCount
        exact ⟨actions ++ [last], by simp [hLength],
          forall_getElem?_concat hActions (hLength ▸ hLast)⟩
  obtain ⟨actions, hLength, hActions⟩ := hFirst _ (Nat.le_refl _)
  exact ⟨actions, hLength, hActions⟩

/-- It has no other. -/
theorem Replays.unique {others : List Split} (h : forest.Replays actions)
    (hOthers : forest.Replays others) : others = actions := by
  refine List.ext_getElem (hOthers.length.trans h.length.symm) fun index hOther hIndex => ?_
  exact (h.introduces index _ (List.getElem?_eq_getElem hIndex)).unique
    (hOthers.introduces index _ (List.getElem?_eq_getElem hOther))

/-! ## Every run is a replay -/

namespace Splits

variable (h : forest.Splits action grown index) (hForest : forest.WellFormed)

include h hForest

/-- The new root is greater than all others. -/
theorem ascending (hAscending : forest.roots.Pairwise (· < ·)) :
    grown.roots.Pairwise (· < ·) := by
  rw [h.roots]
  split
  · refine List.pairwise_append.mpr ⟨hAscending, List.pairwise_singleton _ _, ?_⟩
    intro root hRoot last hLast
    rw [List.mem_singleton.mp hLast]
    exact h.root_lt hForest hRoot
  · exact hAscending

/-- The new node is where the split has put it. -/
theorem introduces_new : grown.Introduces index action where
  node := ⟨_, h.fresh, rfl, rfl, rfl⟩
  root hRoot := by
    rcases h.mem_roots_iff.mp hRoot with hOld | ⟨hPlace, _⟩
    · exact absurd (h.root_lt hForest hOld) (Nat.lt_irrefl _)
    · exact hPlace
  child hRoot := by
    cases hPlace : action.place with
    | root => exact absurd (h.mem_roots_iff.mpr (.inr ⟨hPlace, rfl⟩)) hRoot
    | child parent position =>
        obtain ⟨_, decision, _, rfl, _⟩ := h.wasLeaf _ _ hPlace
        have hEdge := h.edgeTo_iff.mpr (.inr ⟨hPlace, rfl⟩)
        exact ⟨parent, decision, rfl, hEdge, fun _ _ hOther =>
          h.unshared hForest hRoot hEdge hOther⟩

omit hForest in
/-- The nodes before it are where they were. -/
theorem introduces_old {before : Split} {position : Nat}
    (hBefore : forest.Introduces position before) : grown.Introduces position before where
  node := by
    obtain ⟨node, hNode, hRule, hFalse, hTrue⟩ := hBefore.node
    obtain ⟨after, hAfter, hSameRule, _, hEdges⟩ := h.kept position node hNode
    exact ⟨after, hAfter, hRule.trans hSameRule.symm, hFalse.trans (hEdges false).1.symm,
      hTrue.trans (hEdges true).1.symm⟩
  root hRoot := by
    rcases h.mem_roots_iff.mp hRoot with hOld | ⟨_, rfl⟩
    · exact hBefore.root hOld
    · exact absurd hBefore.lt_nodeCount (by rw [h.last]; exact Nat.lt_irrefl _)
  child hRoot := by
    have hOldRoot : position ∉ forest.roots := fun hMem => hRoot (h.mem_roots_iff.mpr (.inl hMem))
    obtain ⟨parent, decision, hPlace, hEdge, hUnique⟩ := hBefore.child hOldRoot
    refine ⟨parent, decision, hPlace, h.edgeTo_iff.mpr (.inl hEdge), fun other choice hOther => ?_⟩
    rcases h.edgeTo_iff.mp hOther with hOld | ⟨_, rfl⟩
    · exact hUnique other choice hOld
    · exact absurd hBefore.lt_nodeCount (by rw [h.last]; exact Nat.lt_irrefl _)

/-- A replay goes on with the next split. -/
theorem replays (hReplays : forest.Replays actions) : grown.Replays (actions ++ [action]) where
  length := by rw [List.length_append, List.length_singleton, hReplays.length, h.count]
  introduces := by
    have hLast : actions.length = index := hReplays.length.trans h.last.symm
    exact forall_getElem?_concat
      (fun position made hMade => h.introduces_old (hReplays.introduces position made hMade))
      (hLast ▸ h.introduces_new hForest)

end Splits

/-- What any run of splits gives is valid, has its roots in order, and the run is its replay. -/
theorem replays_of_splitAll (h : empty.splitAll actions = .ok grown) :
    grown.WellFormed ∧ grown.roots.Pairwise (· < ·) ∧ grown.Replays actions := by
  induction actions using List.reverseRecOn generalizing grown with
  | nil =>
      cases h
      exact ⟨validate_eq_ok_iff.mp validate_empty, .nil, rfl, by simp⟩
  | append_singleton actions action ih =>
      obtain ⟨half, hHalf, hLast⟩ := splitAll_append_eq_ok_iff.mp h
      obtain ⟨index, hSplit⟩ := splitAll_singleton_eq_ok_iff.mp hLast
      have hSplits := splits_of_split hSplit
      obtain ⟨hWellFormed, hAscending, hReplays⟩ := ih hHalf
      exact ⟨hSplits.wellFormed hWellFormed, hSplits.ascending hWellFormed hAscending,
        hSplits.replays hWellFormed hReplays⟩

/-- Splits that all succeed on the empty forest, and give certain nodes and roots. -/
def Builds (actions : List Split) (nodes : Array Interior) (roots : List Nat) : Prop :=
  ∃ grown, empty.splitAll actions = .ok grown ∧ grown.nodes = nodes ∧ grown.roots = roots

/-- The bias is no part of a replay either. -/
theorem Replays.of_bias {nodes : Array Interior} {roots : List Nat} {bias : Float}
    (h : (⟨nodes, roots, bias⟩ : Forest).Replays actions) (other : Float) :
    (⟨nodes, roots, other⟩ : Forest).Replays actions :=
  ⟨h.length, fun index action hAction =>
    have hIntroduces := h.introduces index action hAction
    ⟨hIntroduces.node, hIntroduces.root, hIntroduces.child⟩⟩

/-- Splits give the nodes and roots of a forest exactly when it is valid, its roots ascend, and
they are its replay. -/
theorem builds_iff_replays :
    Builds actions forest.nodes forest.roots ↔
      forest.WellFormed ∧ forest.roots.Pairwise (· < ·) ∧ forest.Replays actions := by
  obtain ⟨nodes, roots, bias⟩ := forest
  constructor
  · rintro ⟨⟨_, _, zero⟩, hRun, rfl, rfl⟩
    obtain ⟨hWellFormed, hAscending, hReplays⟩ := replays_of_splitAll hRun
    exact ⟨hWellFormed.of_bias bias, hAscending, hReplays.of_bias bias⟩
  · rintro ⟨hWellFormed, hAscending, hReplays⟩
    have hRun := hReplays.splitAll_take hWellFormed hAscending (Nat.le_refl _)
    rw [← hReplays.length, List.take_length, hReplays.length, hWellFormed.cutAt_nodeCount] at hRun
    exact ⟨_, hRun, rfl, rfl⟩

/-- The split at a position adds the node at this position. -/
theorem Replays.exists_split (h : forest.Replays actions) (hForest : forest.WellFormed)
    (hAscending : forest.roots.Pairwise (· < ·)) (hAction : actions[index]? = some action) :
    ∃ half grown, empty.splitAll (actions.take index) = .ok half ∧
      half.split action = .ok (grown, index) := by
  have hIntroduces := h.introduces index action hAction
  exact ⟨_, _, h.splitAll_take hForest hAscending hIntroduces.lt_nodeCount.le,
    split_eq_ok_iff_splits.mpr (hIntroduces.splits_cutAt hForest hAscending)⟩

/-- Nodes and roots come from splits exactly when they are valid and the roots ascend.  The
splits are then one for each node, in the order of the nodes, each at the place of its node,
and no others give the same. -/
theorem builds_iff_ascending (nodes : Array Interior) (roots : List Nat) (bias : Float) :
    ((∃ actions, Builds actions nodes roots) ↔
      (⟨nodes, roots, bias⟩ : Forest).validate = .ok () ∧ roots.Pairwise (· < ·)) ∧
    ((⟨nodes, roots, bias⟩ : Forest).validate = .ok () ∧ roots.Pairwise (· < ·) →
      ∃ actions, (⟨nodes, roots, bias⟩ : Forest).Replays actions ∧
        Builds actions nodes roots ∧
        (∀ index action, actions[index]? = some action → ∃ half grown,
          empty.splitAll (actions.take index) = .ok half ∧
          half.split action = .ok (grown, index)) ∧
        ∀ others, Builds others nodes roots → others = actions) := by
  have hBuilds := fun actions =>
    @builds_iff_replays (⟨nodes, roots, bias⟩ : Forest) actions
  rw [validate_eq_ok_iff]
  refine ⟨⟨?_, ?_⟩, ?_⟩
  · rintro ⟨actions, hActions⟩
    obtain ⟨hWellFormed, hAscending, _⟩ := (hBuilds actions).mp hActions
    exact ⟨hWellFormed, hAscending⟩
  · rintro ⟨hWellFormed, hAscending⟩
    obtain ⟨actions, hReplays⟩ := hWellFormed.exists_replays
    exact ⟨actions, (hBuilds actions).mpr ⟨hWellFormed, hAscending, hReplays⟩⟩
  · rintro ⟨hWellFormed, hAscending⟩
    obtain ⟨actions, hReplays⟩ := hWellFormed.exists_replays
    refine ⟨actions, hReplays, (hBuilds actions).mpr ⟨hWellFormed, hAscending, hReplays⟩,
      fun index action hAction => hReplays.exists_split hWellFormed hAscending hAction,
      fun others hOthers => ?_⟩
    exact hReplays.unique ((hBuilds others).mp hOthers).2.2

/-- Both trees are started before the first one is gone on with. -/
theorem builds_iff_ascending_twoTrees :
    twoTrees.validate = .ok () ∧ twoTrees.roots.Pairwise (· < ·) ∧
    ∃ actions, actions = [
        ⟨.root, .threshold 0 0.5, .constant 1, .constant 2⟩,
        ⟨.root, .linear ⟨[1, -1], 0.25⟩, .constant 3, .linear ⟨[2], 1⟩⟩,
        ⟨.child 0 1, .threshold 1 0, .linear ⟨[1, 1], 0⟩, .constant 5⟩] ∧
      Builds actions twoTrees.nodes twoTrees.roots ∧ twoTrees.Replays actions := by
  have hValid : twoTrees.validate = .ok () := rfl
  have hAscending : twoTrees.roots.Pairwise (· < ·) := by decide
  obtain ⟨actions, hReplays, hBuilds, _, hUnique⟩ :=
    (builds_iff_ascending twoTrees.nodes twoTrees.roots twoTrees.bias).2 ⟨hValid, hAscending⟩
  refine ⟨hValid, hAscending, actions, (hUnique _ ?_).symm, hBuilds, hReplays⟩
  exact ⟨{ twoTrees with bias := 0 }, rfl, rfl, rfl⟩

end Forest

end ForestGraph
