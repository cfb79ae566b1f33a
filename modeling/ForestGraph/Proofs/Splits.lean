import ForestGraph.Forest.Document
import ForestGraph.Proofs.Shape

/-!
# Growing a forest

A split adds one node behind all others and changes one thing besides: it lists the
node as a root or leads one edge, which ended at a leaf, to it.  So the shape is
kept, and every forest that comes from a checked one by splits and additions to the
bias is accepted by the validator.
-/

namespace ForestGraph

/-- One edge of a redirected node has the new target, all else stays. -/
theorem Interior.edge_redirect (node : Interior) (decision choice : Bool) (target : Nat) :
    (node.redirect decision target).edge choice =
      if choice = decision then ⟨(node.edge choice).predictor, .interior target⟩
      else node.edge choice := by
  cases decision <;> cases choice <;> simp [redirect, edge]

@[simp] theorem Interior.rule_redirect (node : Interior) (decision : Bool) (target : Nat) :
    (node.redirect decision target).rule = node.rule := by
  cases decision <;> rfl

@[simp] theorem Interior.firstEdge_redirect (node : Interior) (decision : Bool) (target : Nat) :
    (node.redirect decision target).firstEdge = node.firstEdge := by
  cases decision <;> rfl

theorem Target.isInterior_iff {target : Target} : target.isInterior = true ↔ target ≠ .leaf := by
  cases target <;> simp [isInterior, node?]

namespace Forest

/-- What a split does to a forest. -/
structure Splits (forest : Forest) (action : Split) (grown : Forest) (index : Nat) :
    Prop where
  /-- The new node stands behind all others. -/
  last : index = forest.nodeCount
  count : grown.nodeCount = forest.nodeCount + 1
  /-- Both edges of the new node end at leaves. -/
  fresh : grown.nodes[index]? =
    some ⟨action.rule, ⟨action.onFalse, .leaf⟩, ⟨action.onTrue, .leaf⟩, 2 * index⟩
  /-- The edge that is named ended at a leaf. -/
  wasLeaf : ∀ parent position, action.place = .child parent position →
    ∃ node decision, forest.nodes[parent]? = some node ∧ position = decision.toNat ∧
      (node.edge decision).target = .leaf
  /-- The other nodes keep all but the target of the edge that is named. -/
  kept : ∀ other node, forest.nodes[other]? = some node →
    ∃ after, grown.nodes[other]? = some after ∧ after.rule = node.rule ∧
      after.firstEdge = node.firstEdge ∧
      ∀ decision, (after.edge decision).predictor = (node.edge decision).predictor ∧
        (after.edge decision).target =
          if action.place = .child other decision.toNat then .interior index
          else (node.edge decision).target
  roots : grown.roots =
    if action.place = .root then forest.roots ++ [index] else forest.roots
  bias : grown.bias = forest.bias

variable {forest grown : Forest} {action : Split} {index : Nat}

/-- Decisions are told apart by their positions. -/
theorem position_inj {decision choice : Bool} :
    decision.toNat = choice.toNat ↔ decision = choice := by
  cases decision <;> cases choice <;> simp

theorem decisionAt?_eq_some_iff {position : Nat} {decision : Bool} :
    decisionAt? position = some decision ↔ position = decision.toNat := by
  cases decision <;> rcases position with _ | _ | position <;> simp [decisionAt?]

/-- A split at an edge needs an edge that ends at a leaf. -/
theorem split_child_eq_ok_iff {parent position : Nat} {rule : Rule}
    {onFalse onTrue : Predictor} {result : Forest × Nat} :
    forest.split ⟨.child parent position, rule, onFalse, onTrue⟩ = .ok result ↔
      ∃ node decision, forest.nodes[parent]? = some node ∧ position = decision.toNat ∧
        (node.edge decision).target = .leaf ∧
        result = ({ forest with
            nodes := (forest.nodes.setIfInBounds parent
                (node.redirect decision forest.nodeCount)).push
              (Interior.ofLeaves rule onFalse onTrue (forest.nodeCount * edgesPerNode)) },
          forest.nodeCount) := by
  simp only [split, except_bind_eq_ok_iff, node_eq_ok_iff, exists_and_left]
  refine exists_congr fun node => and_congr_right fun _ => ?_
  cases hDecision : decisionAt? position with
  | none =>
      simp only [except_throw_ne_ok, false_iff]
      rintro ⟨decision, hPosition, _⟩
      simp [decisionAt?_eq_some_iff.mpr hPosition] at hDecision
  | some decision =>
      -- A position names one decision, so the edge is the one that was looked at.
      have hPosition : ∀ choice : Bool, position = choice.toNat ↔ choice = decision := by
        intro choice
        rw [← decisionAt?_eq_some_iff, hDecision, Option.some.injEq, eq_comm]
      simp only [hPosition, exists_eq_left, Target.isInterior_iff]
      by_cases hLeaf : (node.edge decision).target = .leaf
      · simp [hLeaf, @eq_comm _ result]
      · simp [hLeaf]

/-- One node is exchanged and one is added; all others stay. -/
theorem getElem?_push_setIfInBounds {nodes : Array Interior} {parent other : Nat}
    (hOther : other < nodes.size) (changed fresh : Interior) :
    ((nodes.setIfInBounds parent changed).push fresh)[other]? =
      if parent = other then some changed else nodes[other]? := by
  rw [Array.getElem?_push, Array.size_setIfInBounds, if_neg (Nat.ne_of_lt hOther),
    Array.getElem?_setIfInBounds]
  by_cases hSame : parent = other
  · simp [hSame, hOther]
  · simp [hSame]

/-- Every split that succeeds does what it should. -/
theorem splits_of_split (h : forest.split action = .ok (grown, index)) :
    forest.Splits action grown index := by
  obtain ⟨place, rule, onFalse, onTrue⟩ := action
  cases place with
  | root =>
      rw [split_root] at h
      cases h
      refine ⟨rfl, by simp [nodeCount], ?_, by simp, ?_, rfl, rfl⟩
      · simp [nodeCount, Interior.ofLeaves, edgesPerNode, Nat.mul_comm]
      · intro other node hNode
        have hBound := (Array.getElem?_eq_some_iff.mp hNode).1
        refine ⟨node, ?_, by simp⟩
        simpa [Array.getElem?_push, Nat.ne_of_lt hBound] using hNode
  | child parent position =>
      obtain ⟨node, decision, hNode, rfl, hLeaf, hResult⟩ := split_child_eq_ok_iff.mp h
      cases hResult
      refine ⟨rfl, by simp [nodeCount], ?_, ?_, ?_, rfl, rfl⟩
      · rw [Array.getElem?_push, Array.size_setIfInBounds]
        simp [nodeCount, Interior.ofLeaves, edgesPerNode, Nat.mul_comm]
      · intro other position hPlace
        cases hPlace
        exact ⟨node, decision, hNode, rfl, hLeaf⟩
      · intro other found hFound
        have hBound := (Array.getElem?_eq_some_iff.mp hFound).1
        rw [getElem?_push_setIfInBounds hBound]
        by_cases hSame : parent = other
        · subst hSame
          rw [hNode, Option.some.injEq] at hFound
          subst hFound
          refine ⟨node.redirect decision forest.nodeCount, by simp, by simp, by simp,
            fun choice => ?_⟩
          rw [Interior.edge_redirect]
          by_cases hChoice : choice = decision
          · simp [hChoice]
          · have hOther : decision.toNat ≠ choice.toNat :=
              fun hEqual => hChoice (position_inj.mp hEqual).symm
            simp [hChoice, hOther]
        · exact ⟨found, by simpa [hSame] using hFound, by simp [hSame]⟩

/-! ## The shape is kept -/

/-- A node of a grown forest was there before or is the new one. -/
theorem Splits.exists_node_or_eq (h : forest.Splits action grown index) {other : Nat}
    (hOther : other < grown.nodeCount) :
    (∃ node, forest.nodes[other]? = some node) ∨ other = index := by
  rw [h.count] at hOther
  by_cases hOld : other < forest.nodeCount
  · exact .inl ⟨_, Array.getElem?_eq_getElem hOld⟩
  · have hLast := h.last
    exact .inr (by omega)

/-- What a node has become. -/
theorem Splits.of_nodes (h : forest.Splits action grown index) {other : Nat}
    {node after : Interior} (hNode : forest.nodes[other]? = some node)
    (hAfter : grown.nodes[other]? = some after) :
    after.firstEdge = node.firstEdge ∧ ∀ decision, (after.edge decision).target =
      if action.place = .child other decision.toNat then .interior index
      else (node.edge decision).target := by
  obtain ⟨same, hSame, _, hFirst, hEdges⟩ := h.kept other node hNode
  rw [hAfter, Option.some.injEq] at hSame
  subst hSame
  exact ⟨hFirst, fun decision => (hEdges decision).2⟩

/-- The edge that is named, by its decision. -/
theorem Splits.exists_leaf (h : forest.Splits action grown index) {parent : Nat}
    {decision : Bool} (hPlace : action.place = .child parent decision.toNat) :
    ∃ node, forest.nodes[parent]? = some node ∧ (node.edge decision).target = .leaf := by
  obtain ⟨node, choice, hNode, hChoice, hLeaf⟩ := h.wasLeaf _ _ hPlace
  rw [← position_inj.mp hChoice] at hLeaf
  exact ⟨node, hNode, hLeaf⟩

/-- The edges of a grown forest are the old ones and the one that was named. -/
theorem Splits.edgeTo_iff (h : forest.Splits action grown index) {parent child : Nat}
    {decision : Bool} :
    grown.EdgeTo parent decision child ↔
      forest.EdgeTo parent decision child ∨
        action.place = .child parent decision.toNat ∧ child = index := by
  constructor
  · intro hEdge
    have hBound := hEdge.lt_nodeCount
    obtain ⟨after, hAfter, hTarget⟩ := hEdge
    rcases h.exists_node_or_eq hBound with ⟨node, hNode⟩ | rfl
    · rw [(h.of_nodes hNode hAfter).2 decision] at hTarget
      split at hTarget
      · rename_i hPlace
        exact .inr ⟨hPlace, (Target.interior.inj hTarget).symm⟩
      · exact .inl ⟨node, hNode, hTarget⟩
    -- The edges of the new node end at leaves.
    · rw [h.fresh, Option.some.injEq] at hAfter
      subst hAfter
      cases decision <;> cases hTarget
  · rintro (⟨node, hNode, hTarget⟩ | ⟨hPlace, rfl⟩)
    · obtain ⟨after, hAfter, _⟩ := h.kept parent node hNode
      have hOther : action.place ≠ .child parent decision.toNat := by
        intro hPlace
        obtain ⟨same, hSame, hLeaf⟩ := h.exists_leaf hPlace
        rw [hNode, Option.some.injEq] at hSame
        rw [← hSame, hTarget] at hLeaf
        cases hLeaf
      exact ⟨after, hAfter, by rw [(h.of_nodes hNode hAfter).2, if_neg hOther, hTarget]⟩
    · obtain ⟨node, hNode, _⟩ := h.exists_leaf hPlace
      obtain ⟨after, hAfter, _⟩ := h.kept parent node hNode
      exact ⟨after, hAfter, by rw [(h.of_nodes hNode hAfter).2, if_pos hPlace]⟩

theorem Splits.mem_roots_iff (h : forest.Splits action grown index) {root : Nat} :
    root ∈ grown.roots ↔ root ∈ forest.roots ∨ action.place = .root ∧ root = index := by
  rw [h.roots]
  split
  · rename_i hPlace
    simp [hPlace]
  · rename_i hPlace
    simp [hPlace]

section WellFormed

variable (h : forest.Splits action grown index) (hForest : forest.WellFormed)

include h hForest

/-! The new node is later than all others, so neither an old root nor an old edge
leads to it. -/

theorem Splits.root_lt {root : Nat} (hRoot : root ∈ forest.roots) : root < index := by
  rw [h.last]
  exact hForest.rooted root hRoot

theorem Splits.child_lt {parent child : Nat} {decision : Bool}
    (hEdge : forest.EdgeTo parent decision child) : child < index := by
  rw [h.last]
  exact (hForest.descends hEdge).2

theorem Splits.nodup_roots : grown.roots.Nodup := by
  rw [h.roots]
  split
  · have hFresh : index ∉ forest.roots := fun hMem => Nat.lt_irrefl _ (h.root_lt hForest hMem)
    simp only [List.nodup_append, hForest.distinct, List.nodup_singleton, List.mem_singleton,
      true_and]
    rintro root hRoot _ rfl rfl
    exact hFresh hRoot
  · exact hForest.distinct

theorem Splits.numbered {other : Nat} {after : Interior}
    (hAfter : grown.nodes[other]? = some after) : after.firstEdge = other * edgesPerNode := by
  have hBound : other < grown.nodeCount := (Array.getElem?_eq_some_iff.mp hAfter).1
  rcases h.exists_node_or_eq hBound with ⟨node, hNode⟩ | rfl
  · rw [(h.of_nodes hNode hAfter).1, hForest.numbered hNode]
  · rw [h.fresh, Option.some.injEq] at hAfter
    rw [← hAfter, edgesPerNode, Nat.mul_comm]

theorem Splits.descends : grown.Descends := by
  intro parent decision child hEdge
  rw [h.count]
  rcases h.edgeTo_iff.mp hEdge with hOld | ⟨hPlace, rfl⟩
  · have hBounds := hForest.descends hOld
    exact ⟨hBounds.1, by omega⟩
  · obtain ⟨node, hNode, _⟩ := h.exists_leaf hPlace
    have hBound : parent < forest.nodeCount := (Array.getElem?_eq_some_iff.mp hNode).1
    have hLast := h.last
    exact ⟨by omega, by omega⟩

theorem Splits.rootless {parent child : Nat} {decision : Bool}
    (hEdge : grown.EdgeTo parent decision child) : child ∉ grown.roots := by
  intro hRoot
  rcases h.edgeTo_iff.mp hEdge with hOld | ⟨hPlace, rfl⟩
  · rcases h.mem_roots_iff.mp hRoot with hOldRoot | ⟨_, rfl⟩
    · exact hForest.rootless hOld hOldRoot
    · exact Nat.lt_irrefl _ (h.child_lt hForest hOld)
  · rcases h.mem_roots_iff.mp hRoot with hOldRoot | ⟨hRootPlace, _⟩
    · exact Nat.lt_irrefl _ (h.root_lt hForest hOldRoot)
    -- A split has one place, so the new node is no root.
    · rw [hPlace] at hRootPlace
      cases hRootPlace

theorem Splits.unshared : grown.Unshared := by
  intro parent other decision choice child _ hEdge hOther
  rcases h.edgeTo_iff.mp hEdge with hOld | ⟨hPlace, rfl⟩
  · rcases h.edgeTo_iff.mp hOther with hOtherOld | ⟨_, rfl⟩
    · exact hForest.unshared (hForest.rootless hOld) hOld hOtherOld
    · exact absurd (h.child_lt hForest hOld) (Nat.lt_irrefl _)
  · rcases h.edgeTo_iff.mp hOther with hOtherOld | ⟨hOtherPlace, _⟩
    · exact absurd (h.child_lt hForest hOtherOld) (Nat.lt_irrefl _)
    · rw [hPlace, Place.child.injEq, position_inj] at hOtherPlace
      exact ⟨hOtherPlace.1.symm, hOtherPlace.2.symm⟩

theorem Splits.entered {other : Nat} (hOther : other < grown.nodeCount) :
    other ∈ grown.roots ∨ ∃ parent decision, grown.EdgeTo parent decision other := by
  rcases h.exists_node_or_eq hOther with ⟨node, hNode⟩ | rfl
  · have hBound : other < forest.nodeCount := (Array.getElem?_eq_some_iff.mp hNode).1
    rcases hForest.entered other hBound with hOld | ⟨parent, decision, hEdge⟩
    · exact .inl (h.mem_roots_iff.mpr (.inl hOld))
    · exact .inr ⟨parent, decision, h.edgeTo_iff.mpr (.inl hEdge)⟩
  · cases hPlace : action.place with
    | root => exact .inl (h.mem_roots_iff.mpr (.inr ⟨hPlace, rfl⟩))
    | child parent position =>
        obtain ⟨_, decision, _, rfl, _⟩ := h.wasLeaf _ _ hPlace
        exact .inr ⟨parent, decision, h.edgeTo_iff.mpr (.inr ⟨hPlace, rfl⟩)⟩

/-- A split keeps the shape. -/
theorem Splits.wellFormed : grown.WellFormed where
  distinct := h.nodup_roots hForest
  rooted root hRoot := by
    have hLast := h.last
    rw [h.count]
    rcases h.mem_roots_iff.mp hRoot with hOld | ⟨_, rfl⟩
    · have hBound := h.root_lt hForest hOld
      omega
    · omega
  numbered := h.numbered hForest
  descends := h.descends hForest
  rootless := h.rootless hForest
  unshared := h.unshared hForest
  entered _ := h.entered hForest

end WellFormed

/-! ## Any number of changes -/

/-- A change that can be asked of a forest. -/
inductive Change where
  | split (action : Split)
  | addToBias (value : Float)

/-- The forest after a change; a split that is refused leaves it as it is. -/
def Change.apply (forest : Forest) : Change → Forest
  | split action =>
      match forest.split action with
      | .ok (grown, _) => grown
      | .error _ => forest
  | addToBias value => forest.addToBias value

/-- The forests that checked constructions give. -/
inductive Checked : Forest → Prop where
  | empty : Checked empty
  | ofParts {nodes : Array Interior} {roots : List Nat} {bias : Float} {forest : Forest} :
      ofParts nodes roots bias = .ok forest → Checked forest
  | fromJson {codec : Json.Codec} {kind : ForestKind} {text : String} {forest : Forest} :
      fromJson codec kind text = .ok forest → Checked forest

theorem ofParts_eq_ok_iff {nodes : Array Interior} {roots : List Nat} {bias : Float}
    {result : Forest} :
    ofParts nodes roots bias = .ok result ↔
      result.validate = .ok () ∧ result = ⟨nodes, roots, bias⟩ := by
  simp only [ofParts, except_bind_eq_ok_iff, except_pure_eq_ok_iff]
  constructor
  · rintro ⟨_, hValid, rfl⟩
    exact ⟨hValid, rfl⟩
  · rintro ⟨hValid, rfl⟩
    exact ⟨(), hValid, rfl⟩

theorem fromJson_eq_ok_iff {codec : Json.Codec} {kind : ForestKind} {text : String}
    {result : Forest} :
    fromJson codec kind text = .ok result ↔
      result.validate = .ok () ∧ parse codec kind text = .ok result := by
  simp only [fromJson, except_bind_eq_ok_iff, except_pure_eq_ok_iff]
  constructor
  · rintro ⟨_, hParse, _, hValid, rfl⟩
    exact ⟨hValid, hParse⟩
  · rintro ⟨hValid, hParse⟩
    exact ⟨result, hParse, (), hValid, rfl⟩

theorem Checked.validate (h : forest.Checked) : forest.validate = .ok () := by
  cases h with
  | empty => exact validate_empty
  | ofParts h => exact (ofParts_eq_ok_iff.mp h).1
  | fromJson h => exact (fromJson_eq_ok_iff.mp h).1

/-- The bias is no part of the shape. -/
theorem WellFormed.of_bias {nodes : Array Interior} {roots : List Nat} {bias : Float}
    (h : (⟨nodes, roots, bias⟩ : Forest).WellFormed) (other : Float) :
    (⟨nodes, roots, other⟩ : Forest).WellFormed :=
  ⟨h.distinct, h.rooted, h.numbered, h.descends, h.rootless, h.unshared, h.entered⟩

theorem WellFormed.addToBias (h : forest.WellFormed) (value : Float) :
    (forest.addToBias value).WellFormed :=
  h.of_bias (forest.bias + value)

/-- One change keeps the shape, whether it is made or refused. -/
theorem WellFormed.apply (h : forest.WellFormed) (change : Change) :
    (change.apply forest).WellFormed := by
  cases change with
  | split action =>
      simp only [Change.apply]
      split
      · rename_i grown index hSplit
        exact (splits_of_split hSplit).wellFormed h
      · exact h
  | addToBias value => exact h.addToBias value

/-- Any number of changes keep the shape. -/
theorem WellFormed.foldl_apply (h : forest.WellFormed) (changes : List Change) :
    (changes.foldl Change.apply forest).WellFormed := by
  induction changes generalizing forest with
  | nil => exact h
  | cons change later ih => exact ih (h.apply change)

/-- Whatever is asked of a checked forest, it stays valid, and every split that
succeeds adds one node and changes one thing besides. -/
theorem Checked.validate_foldl_apply (start : Forest) (hStart : start.Checked)
    (changes : List Change) :
    (changes.foldl Change.apply start).validate = .ok () ∧
      ∀ action grown index,
        (changes.foldl Change.apply start).split action = .ok (grown, index) →
          (changes.foldl Change.apply start).Splits action grown index := by
  have hShape := (validate_eq_ok_iff.mp hStart.validate).foldl_apply changes
  exact ⟨validate_eq_ok_iff.mpr hShape, fun _ _ _ => splits_of_split⟩

/-- A leaf of the two trees is split, splitting it again is refused, and a tree is added. -/
theorem validate_foldl_apply_twoTrees :
    twoTrees.Checked ∧ ∃ changed grown,
      [.split ⟨.child 2 1, .threshold 0 1, .constant 1, .constant 2⟩,
        .split ⟨.child 2 1, .threshold 0 2, .constant 3, .constant 4⟩,
        .addToBias 0.5].foldl Change.apply twoTrees = changed ∧
      changed.validate = .ok () ∧
      changed.split ⟨.root, .threshold 1 0, .constant 5, .constant 6⟩ = .ok (grown, 4) ∧
      changed.Splits ⟨.root, .threshold 1 0, .constant 5, .constant 6⟩ grown 4 := by
  have hStart : twoTrees.Checked := .ofParts (ofParts_eq_ok_iff.mpr ⟨rfl, rfl⟩)
  obtain ⟨hValid, hSplits⟩ := Checked.validate_foldl_apply twoTrees hStart
    [.split ⟨.child 2 1, .threshold 0 1, .constant 1, .constant 2⟩,
      .split ⟨.child 2 1, .threshold 0 2, .constant 3, .constant 4⟩,
      .addToBias 0.5]
  exact ⟨hStart, _, _, rfl, hValid, rfl, hSplits _ _ _ rfl⟩

end Forest

end ForestGraph
