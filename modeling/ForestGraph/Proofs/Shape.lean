import Mathlib.Data.Fintype.EquivFin
import Mathlib.Data.Fintype.Prod
import Mathlib.Data.List.Nodup
import ForestGraph.Forest.Validity
import ForestGraph.Proofs.Walks

/-!
# The shape of well-formed forests

What `Forest.validate` accepts, as a statement on edges instead of lists of
claimed nodes.  The weaker `Expandable` is what the expansion of a forest relies
on: it allows for nodes with several parents and for edges numbered in another
order, but the numbers still tell the edges apart, as there are no more edges
than numbers.
-/

namespace ForestGraph.Forest

/-- Every node that is no root is the end of at most one edge. -/
def Unshared (forest : Forest) : Prop :=
  ∀ {parent other : Nat} {decision choice : Bool} {child : Nat}, child ∉ forest.roots →
    forest.EdgeTo parent decision child → forest.EdgeTo other choice child →
    other = parent ∧ choice = decision

/-- Disjoint binary trees, numbered from the roots down. -/
structure WellFormed (forest : Forest) : Prop where
  distinct : forest.roots.Nodup
  rooted : ∀ root ∈ forest.roots, root < forest.nodeCount
  numbered : ∀ {index : Nat} {node : Interior}, forest.nodes[index]? = some node →
    node.firstEdge = index * edgesPerNode
  descends : forest.Descends
  rootless : ∀ {parent : Nat} {decision : Bool} {child : Nat},
    forest.EdgeTo parent decision child → child ∉ forest.roots
  unshared : forest.Unshared
  entered : ∀ index < forest.nodeCount, index ∈ forest.roots ∨
    ∃ parent decision, forest.EdgeTo parent decision index

/-- A forest whose subtrees and edges can be found by their indices. -/
structure Expandable (forest : Forest) : Prop where
  rooted : ∀ root ∈ forest.roots, root < forest.nodeCount
  descends : forest.Descends
  entered : ∀ index < forest.nodeCount, index ∈ forest.roots ∨
    ∃ parent decision, forest.EdgeTo parent decision index
  numbered : ∀ number < forest.edgeCount, ∃ index decision,
    forest.Numbers index decision number

variable {forest : Forest}

/-! ## The checks -/

theorem checkRoots_eq_ok_iff {count : Nat} {seen roots : List Nat} :
    checkRoots count seen roots = .ok () ↔
      roots.Nodup ∧ ∀ root ∈ roots, root < count ∧ root ∉ seen := by
  induction roots generalizing seen with
  | nil => simp [checkRoots]
  | cons root later ih =>
      unfold checkRoots
      by_cases hOutside : count ≤ root
      · simp [hOutside]
      · by_cases hSeen : root ∈ seen
        · simp [hOutside, hSeen]
        · have hInside : root < count := by omega
          rw [List.forall_mem_cons, List.nodup_cons]
          simp only [hOutside, hSeen, if_false, ih, List.contains_iff_mem, List.mem_cons, not_or]
          constructor
          · rintro ⟨hNodup, hLater⟩
            refine ⟨⟨fun hRoot => (hLater root hRoot).2.1 rfl, hNodup⟩, ⟨hInside, not_false⟩, ?_⟩
            exact fun other hOther => ⟨(hLater other hOther).1, (hLater other hOther).2.2⟩
          · rintro ⟨⟨hRoot, hNodup⟩, _, hLater⟩
            refine ⟨hNodup, fun other hOther =>
              ⟨(hLater other hOther).1, ?_, (hLater other hOther).2⟩⟩
            rintro rfl
            exact hRoot hOther

/-- Children are accepted if none has been claimed before. -/
theorem checkChildren_eq_ok_iff {index : Nat} {claimed children result : List Nat} :
    checkChildren forest index claimed children = .ok result ↔
      result = children.reverse ++ claimed ∧ children.Nodup ∧
        ∀ child ∈ children, child ∉ claimed ∧ index < child ∧ child < forest.nodeCount ∧
          child ∉ forest.roots := by
  induction children generalizing claimed with
  | nil => simp [checkChildren, eq_comm]
  | cons child later ih =>
      unfold checkChildren
      by_cases hOutside : forest.nodeCount ≤ child
      · have hNot : ¬ child < forest.nodeCount := by omega
        simp [hOutside, hNot]
      by_cases hEarlier : child ≤ index
      · have hNot : ¬ index < child := by omega
        simp [hOutside, hEarlier, hNot]
      by_cases hRoot : child ∈ forest.roots
      · simp [hOutside, hEarlier, isRoot, hRoot]
      by_cases hClaimed : child ∈ claimed
      · simp [hOutside, hEarlier, isRoot, hRoot, hClaimed]
      have hInside : child < forest.nodeCount := by omega
      have hLater : index < child := by omega
      rw [List.forall_mem_cons, List.nodup_cons]
      simp only [hOutside, hEarlier, isRoot, hRoot, hClaimed, if_false, ih, List.contains_iff_mem,
        List.mem_cons, not_or, List.reverse_cons, List.append_assoc, List.singleton_append]
      refine and_congr_right fun _ => ?_
      constructor
      · rintro ⟨hNodup, h⟩
        refine ⟨⟨fun hMem => (h child hMem).1.1 rfl, hNodup⟩,
          ⟨not_false, hLater, hInside, not_false⟩, ?_⟩
        exact fun other hOther => ⟨(h other hOther).1.2, (h other hOther).2⟩
      · rintro ⟨⟨hMem, hNodup⟩, _, h⟩
        refine ⟨hNodup, fun other hOther => ⟨⟨?_, (h other hOther).1⟩, (h other hOther).2⟩⟩
        rintro rfl
        exact hMem hOther

/-- The nodes from an index on are accepted if their edges carry the right
numbers and no two of them, nor one before, lead to the same node. -/
theorem checkNodes_eq_ok_iff {index : Nat} {claimed result : List Nat} {nodes : List Interior} :
    checkNodes forest index claimed nodes = .ok result ↔
      result = (nodes.flatMap Interior.children).reverse ++ claimed ∧
      (nodes.flatMap Interior.children).Nodup ∧
      (∀ child ∈ nodes.flatMap Interior.children, child ∉ claimed) ∧
      ∀ offset node, nodes[offset]? = some node →
        node.firstEdge = (index + offset) * edgesPerNode ∧
        ∀ child ∈ node.children, index + offset < child ∧ child < forest.nodeCount ∧
          child ∉ forest.roots := by
  induction nodes generalizing index claimed with
  | nil => simp [checkNodes, eq_comm]
  | cons node later ih =>
      rw [@forall_getElem?_cons_iff _ fun position (other : Interior) =>
        other.firstEdge = position * edgesPerNode ∧ ∀ child ∈ other.children,
          position < child ∧ child < forest.nodeCount ∧ child ∉ forest.roots]
      unfold checkNodes
      by_cases hNumber : node.firstEdge = index * edgesPerNode
      · simp only [hNumber, ne_eq, not_true_eq_false, if_false, except_bind_eq_ok_iff,
          checkChildren_eq_ok_iff, ih, List.flatMap_cons, List.nodup_append', List.reverse_append,
          List.append_assoc, List.mem_append, true_and]
        constructor
        · rintro ⟨_, ⟨rfl, hNodup, hChildren⟩, rfl, hLaterNodup, hFresh, hLater⟩
          refine ⟨rfl, ⟨hNodup, hLaterNodup, ?_⟩, ?_, ?_, hLater⟩
          · exact fun child hChild hOther => hFresh child hOther (by simp [hChild])
          · rintro child (hChild | hChild)
            · exact (hChildren child hChild).1
            · exact fun hClaimed => hFresh child hChild (by simp [hClaimed])
          · exact fun child hChild => (hChildren child hChild).2
        -- The children of this node count as claimed for the nodes behind it.
        · rintro ⟨rfl, ⟨hNodup, hLaterNodup, hDisjoint⟩, hFresh, hChildren, hLater⟩
          refine ⟨_, ⟨rfl, hNodup, ?_⟩, rfl, hLaterNodup, ?_, hLater⟩
          · exact fun child hChild => ⟨hFresh child (.inl hChild), hChildren child hChild⟩
          · intro child hChild hMem
            rcases List.mem_append.mp hMem with hMem | hMem
            · exact hDisjoint (List.mem_reverse.mp hMem) hChild
            · exact hFresh child (.inr hChild) hMem
      · simp [hNumber]

/-! ## Edges and lists of children -/

theorem mem_targets_iff {child : Nat} :
    child ∈ forest.nodes.toList.flatMap Interior.children ↔
      ∃ parent decision, forest.EdgeTo parent decision child := by
  rw [List.mem_flatMap]
  constructor
  · rintro ⟨node, hNode, hChild⟩
    obtain ⟨parent, hParent⟩ := List.mem_iff_getElem?.mp hNode
    rw [Array.getElem?_toList] at hParent
    obtain ⟨decision, hTarget⟩ := Interior.mem_children_iff.mp hChild
    exact ⟨parent, decision, node, hParent, hTarget⟩
  · rintro ⟨parent, decision, node, hNode, hTarget⟩
    rw [← Array.getElem?_toList] at hNode
    exact ⟨node, List.mem_iff_getElem?.mpr ⟨parent, hNode⟩,
      Interior.mem_children_iff.mpr ⟨decision, hTarget⟩⟩

/-- The edges of one node lead to different nodes if its children are distinct. -/
theorem nodup_children_iff {node : Interior} :
    node.children.Nodup ↔ ∀ decision choice child,
      (node.edge decision).target = .interior child →
      (node.edge choice).target = .interior child → choice = decision := by
  constructor
  · intro h decision choice child hTarget hOther
    by_contra hNe
    have hBoth : node.children = [child, child] := by
      cases decision <;> cases choice <;>
        simp_all [Interior.children, Interior.edges, Interior.edge, Target.node?]
    rw [hBoth] at h
    simp at h
  · intro h
    have hDistinct : ∀ child, node.onFalse.target = .interior child →
        node.onTrue.target ≠ .interior child := by
      intro child hFalse hTrue
      exact absurd (h false true child hFalse hTrue) (by decide)
    unfold Interior.children Interior.edges
    cases hFalse : node.onFalse.target with
    | leaf => cases hTrue : node.onTrue.target <;> simp [hFalse, hTrue, Target.node?]
    | interior first =>
        cases hTrue : node.onTrue.target with
        | leaf => simp [hFalse, hTrue, Target.node?]
        | interior second =>
            have hNe : first ≠ second := fun hSame => hDistinct first hFalse (hSame ▸ hTrue)
            simp [hFalse, hTrue, Target.node?, hNe]

/-- No child occurs twice exactly when no two edges lead to the same node. -/
theorem nodup_targets_iff :
    (forest.nodes.toList.flatMap Interior.children).Nodup ↔
      ∀ parent other decision choice child, forest.EdgeTo parent decision child →
        forest.EdgeTo other choice child → other = parent ∧ choice = decision := by
  rw [List.nodup_flatMap, List.pairwise_iff_getElem]
  constructor
  · rintro ⟨hChildren, hPairs⟩ parent other decision choice child hEdge hOther
    obtain ⟨node, hNode, hTarget⟩ := hEdge
    obtain ⟨otherNode, hOtherNode, hOtherTarget⟩ := hOther
    have hMem := Interior.mem_children_iff.mpr ⟨decision, hTarget⟩
    have hOtherMem := Interior.mem_children_iff.mpr ⟨choice, hOtherTarget⟩
    rw [← Array.getElem?_toList] at hNode hOtherNode
    obtain ⟨hLt, rfl⟩ := List.getElem?_eq_some_iff.mp hNode
    obtain ⟨hOtherLt, rfl⟩ := List.getElem?_eq_some_iff.mp hOtherNode
    -- Two nodes with a child in common would repeat it in the list of all children.
    rcases Nat.lt_trichotomy parent other with hLess | rfl | hLess
    · exact absurd hOtherMem (hPairs parent other hLt hOtherLt hLess hMem)
    · exact ⟨rfl, nodup_children_iff.mp (hChildren _ (List.getElem_mem hLt)) _ _ _ hTarget
        hOtherTarget⟩
    · exact absurd hMem (hPairs other parent hOtherLt hLt hLess hOtherMem)
  · intro h
    constructor
    · intro node hNode
      obtain ⟨parent, hParent⟩ := List.mem_iff_getElem?.mp hNode
      rw [Array.getElem?_toList] at hParent
      rw [nodup_children_iff]
      intro decision choice child hTarget hOther
      exact (h parent parent decision choice child ⟨node, hParent, hTarget⟩
        ⟨node, hParent, hOther⟩).2
    · intro parent other hLt hOtherLt hLess child hMem hOtherMem
      obtain ⟨decision, hTarget⟩ := Interior.mem_children_iff.mp hMem
      obtain ⟨choice, hOther⟩ := Interior.mem_children_iff.mp hOtherMem
      have hSame := (h parent other decision choice child
        ⟨_, by rw [← Array.getElem?_toList, List.getElem?_eq_getElem hLt], hTarget⟩
        ⟨_, by rw [← Array.getElem?_toList, List.getElem?_eq_getElem hOtherLt], hOther⟩).1
      omega

theorem orphan?_eq_none_iff {claimed : List Nat} :
    forest.orphan? claimed = none ↔
      ∀ index < forest.nodeCount, index ∈ forest.roots ∨ index ∈ claimed := by
  simp [orphan?, isRoot, List.find?_eq_none, ← or_iff_not_imp_left]

/-- The validator makes three checks: the roots, the nodes, and that none is left over. -/
theorem validate_eq_ok_iff_checks :
    forest.validate = .ok () ↔
      checkRoots forest.nodeCount [] forest.roots = .ok () ∧
        ∃ claimed, checkNodes forest 0 [] forest.nodes.toList = .ok claimed ∧
          forest.orphan? claimed = none := by
  simp only [validate, except_bind_eq_ok_iff]
  constructor
  · rintro ⟨_, hRoots, claimed, hNodes, h⟩
    refine ⟨hRoots, claimed, hNodes, ?_⟩
    cases hCase : forest.orphan? claimed with
    | none => rfl
    | some node =>
        rw [hCase] at h
        exact absurd h (except_throw_ne_ok _ _)
  · rintro ⟨hRoots, claimed, hNodes, hNone⟩
    refine ⟨(), hRoots, claimed, hNodes, ?_⟩
    rw [hNone]
    rfl

/-- The validator accepts exactly the well-formed forests. -/
theorem validate_eq_ok_iff : forest.validate = .ok () ↔ forest.WellFormed := by
  rw [validate_eq_ok_iff_checks, checkRoots_eq_ok_iff]
  simp only [checkNodes_eq_ok_iff, orphan?_eq_none_iff, nodup_targets_iff, List.append_nil,
    Nat.zero_add, List.not_mem_nil, not_false_eq_true, and_true, true_and, implies_true]
  constructor
  · rintro ⟨⟨hDistinct, hRooted⟩, claimed, ⟨rfl, hUnshared, hNodes⟩, hEntered⟩
    -- What the nodes are checked for, said of single edges.
    have hEdges : ∀ {parent : Nat} {decision : Bool} {child : Nat},
        forest.EdgeTo parent decision child → parent < child ∧ child < forest.nodeCount ∧
          child ∉ forest.roots := by
      rintro parent decision child ⟨node, hNode, hTarget⟩
      rw [← Array.getElem?_toList] at hNode
      exact (hNodes parent node hNode).2 child (Interior.mem_children_iff.mpr ⟨decision, hTarget⟩)
    refine ⟨hDistinct, hRooted, ?_, fun hEdge => ⟨(hEdges hEdge).1, (hEdges hEdge).2.1⟩,
      fun hEdge => (hEdges hEdge).2.2, fun _ => hUnshared _ _ _ _ _, ?_⟩
    · intro index node hNode
      rw [← Array.getElem?_toList] at hNode
      exact (hNodes index node hNode).1
    · intro index hIndex
      have hMem := hEntered index hIndex
      rwa [List.mem_reverse, mem_targets_iff] at hMem
  · intro h
    refine ⟨⟨h.distinct, h.rooted⟩, _, ⟨rfl, ?_, ?_⟩, ?_⟩
    · exact fun parent other decision choice child hEdge => h.unshared (h.rootless hEdge) hEdge
    · intro index node hNode
      rw [Array.getElem?_toList] at hNode
      refine ⟨h.numbered hNode, fun child hChild => ?_⟩
      obtain ⟨decision, hTarget⟩ := Interior.mem_children_iff.mp hChild
      have hEdge : forest.EdgeTo index decision child := ⟨node, hNode, hTarget⟩
      exact ⟨(h.descends hEdge).1, (h.descends hEdge).2, h.rootless hEdge⟩
    · intro index hIndex
      rw [List.mem_reverse, mem_targets_iff]
      exact h.entered index hIndex

/-- Two trees, one of them with an interior node below its root. -/
def twoTrees : Forest where
  nodes := #[
    ⟨.threshold 0 0.5, ⟨.constant 1, .leaf⟩, ⟨.constant 2, .interior 2⟩, 0⟩,
    ⟨.linear ⟨[1, -1], 0.25⟩, ⟨.constant 3, .leaf⟩, ⟨.linear ⟨[2], 1⟩, .leaf⟩, 2⟩,
    ⟨.threshold 1 0, ⟨.linear ⟨[1, 1], 0⟩, .leaf⟩, ⟨.constant 5, .leaf⟩, 4⟩]
  roots := [0, 1]
  bias := 0.5

example : twoTrees.validate = .ok () := rfl

/-! ## Numbers of edges -/

theorem Numbers.unique {index : Nat} {decision : Bool} {number other : Nat}
    (h : forest.Numbers index decision number) (hOther : forest.Numbers index decision other) :
    other = number := by
  obtain ⟨node, hNode, rfl⟩ := h
  obtain ⟨same, hSame, rfl⟩ := hOther
  rw [hNode] at hSame
  cases hSame
  rfl

theorem Numbers.lt_nodeCount {index : Nat} {decision : Bool} {number : Nat}
    (h : forest.Numbers index decision number) : index < forest.nodeCount := by
  obtain ⟨node, hNode, _⟩ := h
  exact (Array.getElem?_eq_some_iff.mp hNode).1

/-- The edges of node `i` carry the numbers `2 * i` and `2 * i + 1`. -/
theorem WellFormed.numbers_iff (h : forest.WellFormed) {index : Nat} {decision : Bool}
    {number : Nat} : forest.Numbers index decision number ↔
      index < forest.nodeCount ∧ number = 2 * index + decision.toNat := by
  constructor
  · rintro ⟨node, hNode, rfl⟩
    refine ⟨(Array.getElem?_eq_some_iff.mp hNode).1, ?_⟩
    rw [h.numbered hNode, edgesPerNode, Nat.mul_comm]
  · rintro ⟨hIndex, rfl⟩
    have hNode : forest.nodes[index]? = some forest.nodes[index] :=
      Array.getElem?_eq_getElem hIndex
    refine ⟨_, hNode, ?_⟩
    rw [h.numbered hNode, edgesPerNode, Nat.mul_comm]

theorem WellFormed.expandable (h : forest.WellFormed) : forest.Expandable := by
  refine ⟨h.rooted, h.descends, h.entered, fun number hNumber => ?_⟩
  rw [edgeCount, edgesPerNode] at hNumber
  refine ⟨number / 2, decide (number % 2 = 1), h.numbers_iff.mpr ⟨by omega, ?_⟩⟩
  rcases Nat.mod_two_eq_zero_or_one number with hEven | hOdd
  · simp [hEven]
    omega
  · simp [hOdd]
    omega

/-- There are as many edges as numbers, so numbers that are all given out are
given out once each. -/
theorem Expandable.exists_number (h : forest.Expandable) {index : Nat}
    (hIndex : index < forest.nodeCount) (decision : Bool) :
    ∃ number < forest.edgeCount, forest.Numbers index decision number ∧
      ∀ {other : Nat} {choice : Bool}, forest.Numbers other choice number →
        other = index ∧ choice = decision := by
  have hOwner : ∀ number : Fin forest.edgeCount, ∃ owner : Fin forest.nodeCount × Bool,
      forest.Numbers owner.1 owner.2 number := by
    intro number
    obtain ⟨owner, choice, hOwner⟩ := h.numbered number number.isLt
    exact ⟨(⟨owner, hOwner.lt_nodeCount⟩, choice), hOwner⟩
  choose owner hOwner using hOwner
  -- An edge has one number, so no edge owns two of them.
  have hInjective : Function.Injective owner := by
    intro first second hSame
    have hFirst := hOwner first
    rw [hSame] at hFirst
    exact Fin.ext (hFirst.unique (hOwner second)).symm
  -- There are two edges for each node and as many numbers.
  have hCard : Fintype.card (Fin forest.edgeCount) =
      Fintype.card (Fin forest.nodeCount × Bool) := by
    rw [Fintype.card_prod, Fintype.card_fin, Fintype.card_fin, Fintype.card_bool]
    rfl
  have hBijective := (Fintype.bijective_iff_injective_and_card owner).mpr ⟨hInjective, hCard⟩
  obtain ⟨number, hNumber⟩ := hBijective.2 (⟨index, hIndex⟩, decision)
  have hNumbers := hOwner number
  rw [hNumber] at hNumbers
  refine ⟨number, number.isLt, hNumbers, fun {other choice} hOther => ?_⟩
  -- Another owner of the number owns a number as well, and it is this one.
  obtain ⟨same, hSame⟩ := hBijective.2 (⟨other, hOther.lt_nodeCount⟩, choice)
  have hSameNumbers := hOwner same
  rw [hSame] at hSameNumbers
  have hEqual : same = number := Fin.ext (hSameNumbers.unique hOther).symm
  rw [hEqual, hNumber] at hSame
  simp only [Prod.mk.injEq, Fin.mk.injEq] at hSame
  exact ⟨hSame.1.symm, hSame.2.symm⟩

theorem Expandable.number_lt (h : forest.Expandable) {index : Nat} {decision : Bool}
    {number : Nat} (hNumber : forest.Numbers index decision number) :
    number < forest.edgeCount := by
  obtain ⟨same, hLt, hSame, _⟩ := h.exists_number hNumber.lt_nodeCount decision
  rwa [hSame.unique hNumber]

theorem Expandable.owner_unique (h : forest.Expandable) {index other : Nat}
    {decision choice : Bool} {number : Nat} (hNumber : forest.Numbers index decision number)
    (hOther : forest.Numbers other choice number) : other = index ∧ choice = decision := by
  obtain ⟨same, _, hSame, hOwner⟩ := h.exists_number hNumber.lt_nodeCount decision
  rw [← hSame.unique hNumber] at hOwner
  exact hOwner hOther

/-- The walks of an expandable forest stay inside its edges. -/
theorem Expandable.walked (h : forest.Expandable) {input : List Float}
    {walks : List (List Visit)} (hWalks : List.Forall₂ (forest.Walk input) forest.roots walks) :
    forest.Walked input walks := by
  refine ⟨hWalks, fun visits hVisits visit hVisit => ?_⟩
  obtain ⟨tree, hTree⟩ := List.mem_iff_getElem?.mp hVisits
  obtain ⟨root, _, hWalk⟩ := forall₂_getElem?_right hWalks hTree
  obtain ⟨node, hMakes⟩ := hWalk.makes_of_mem hVisit
  exact h.number_lt ⟨node, hMakes.found, hMakes.number⟩

/-- An expandable forest is walked on all inputs with every feature that is read. -/
theorem Expandable.exists_walked (h : forest.Expandable) {input : List Float}
    (hReads : forest.ReadsBelow input.length) :
    ∃ walks, forest.Walked input walks := by
  obtain ⟨walks, hWalks⟩ := exists_forall₂ fun root hRoot =>
    exists_walk h.descends hReads (h.rooted root hRoot)
  exact ⟨walks, h.walked hWalks⟩

end ForestGraph.Forest
