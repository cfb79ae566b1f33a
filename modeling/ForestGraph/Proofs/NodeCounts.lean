import ForestGraph.Proofs.EmittedKinds
import ForestGraph.Proofs.ForestGraphs

/-!
# The size of a lowered forest

The graph that a forest is lowered to has a number of nodes of each kind that depends only
on the numbers of nodes and trees, and on the kinds of the rules and predictors.  In a
well-formed forest each node is either a root or the end of one edge, so there are as many
edges between interior nodes as nodes that are no roots.  These edges are the ones that need
a sum of their own, and these nodes the ones whose edges are gated.
-/

namespace ForestGraph

open Rebuild

/-! ## Roots and inner edges -/

namespace Forest

variable {forest : Forest}

/-- The roots and the ends of edges are all nodes, each of them once. -/
theorem WellFormed.perm_range (h : forest.WellFormed) :
    (forest.roots ++ forest.nodes.toList.flatMap Interior.children).Perm
      (List.range forest.nodeCount) := by
  have hTargets : (forest.nodes.toList.flatMap Interior.children).Nodup :=
    nodup_targets_iff.mpr fun _ _ _ _ _ hEdge => h.unshared (h.rootless hEdge) hEdge
  have hDisjoint : forest.roots.Disjoint (forest.nodes.toList.flatMap Interior.children) := by
    intro index hRoot hTarget
    obtain ⟨parent, decision, hEdge⟩ := mem_targets_iff.mp hTarget
    exact h.rootless hEdge hRoot
  refine (List.perm_ext_iff_of_nodup (h.distinct.append hTargets hDisjoint)
    List.nodup_range).mpr fun index => ?_
  rw [List.mem_append, mem_targets_iff, List.mem_range]
  constructor
  · rintro (hRoot | ⟨parent, decision, hEdge⟩)
    · exact h.rooted index hRoot
    · exact (h.descends hEdge).2
  · exact h.entered index

/-- There are as many edges to interior nodes as nodes that are no roots. -/
theorem WellFormed.treeCount_add_length (h : forest.WellFormed) :
    forest.treeCount + (forest.nodes.toList.flatMap Interior.children).length =
      forest.nodeCount := by
  have hLength := h.perm_range.length_eq
  rwa [List.length_append, List.length_range] at hLength

theorem WellFormed.treeCount_le (h : forest.WellFormed) : forest.treeCount ≤ forest.nodeCount :=
  h.treeCount_add_length ▸ Nat.le_add_right _ _

end Forest

/-! ## Forests of one kind -/

/-- All rules of a forest are of one kind, and so are all predictors. -/
def Forest.OfKind (kind : ForestKind) (forest : Forest) : Prop :=
  ∀ node ∈ forest.nodes.toList, node.rule.kind = kind.rule ∧
    ∀ edge ∈ node.edges, edge.predictor.kind = kind.predictor

/-- The number of affine functions in a rule of a kind. -/
def RuleKind.affineCount : RuleKind → Nat
  | threshold => 0
  | linear => 1

/-- The number of constants that a rule of a kind is emitted with. -/
def RuleKind.constantCount : RuleKind → Nat
  | threshold => 1
  | linear => 3

def PredictorKind.affineCount : PredictorKind → Nat
  | constant => 0
  | linear => 1

def PredictorKind.constantCount : PredictorKind → Nat
  | constant => 1
  | linear => 2

/-- The number of affine functions in a node, which has a predictor on each edge. -/
def ForestKind.affineCount (kind : ForestKind) : Nat :=
  kind.rule.affineCount + 2 * kind.predictor.affineCount

def ForestKind.constantCount (kind : ForestKind) : Nat :=
  kind.rule.constantCount + 2 * kind.predictor.constantCount

theorem RuleKind.emittedKinds_eq (kind : RuleKind) :
    kind.emittedKinds = {"Compare"} + kind.constantCount • {"Constant"} +
      kind.affineCount • {"DotProduct", "Sum"} := by
  cases kind <;> decide

theorem PredictorKind.emittedKinds_eq (kind : PredictorKind) :
    kind.emittedKinds =
      kind.constantCount • {"Constant"} + kind.affineCount • {"DotProduct", "Sum"} := by
  cases kind <;> decide

theorem Edge.emittedKinds_eq (edge : Edge) :
    edge.emittedKinds = edge.predictor.kind.emittedKinds +
      edge.target.node?.toList.length • {"Sum"} := by
  unfold emittedKinds
  cases edge.target <;> rfl

/-- The kinds that a node of a forest of a kind costs, whatever is below it. -/
def ForestKind.nodeKinds (kind : ForestKind) : Multiset String :=
  {"Select"} + {"Compare"} + kind.constantCount • {"Constant"} +
    kind.affineCount • {"DotProduct", "Sum"}

/-- Each child of a node needs one more sum. -/
theorem Interior.emittedKinds_eq {kind : ForestKind} {node : Interior}
    (hRule : node.rule.kind = kind.rule)
    (hEdges : ∀ edge ∈ node.edges, edge.predictor.kind = kind.predictor) :
    node.emittedKinds = kind.nodeKinds + node.children.length • {"Sum"} := by
  have hFalse : node.onFalse.predictor.kind = kind.predictor := hEdges _ (.head _)
  have hTrue : node.onTrue.predictor.kind = kind.predictor := hEdges _ (.tail _ (.head _))
  have hChildren : node.children.length =
      node.onFalse.target.node?.toList.length + node.onTrue.target.node?.toList.length := by
    cases hFalse : node.onFalse.target <;> cases hTrue : node.onTrue.target <;>
      simp [children, edges, hFalse, hTrue, Target.node?]
  rw [emittedKinds, Edge.emittedKinds_eq, Edge.emittedKinds_eq, hFalse, hTrue, hRule, hChildren,
    RuleKind.emittedKinds_eq, PredictorKind.emittedKinds_eq, ForestKind.nodeKinds,
    ForestKind.affineCount, ForestKind.constantCount]
  simp only [Nat.two_mul, add_nsmul]
  ac_rfl

theorem Interior.sum_emittedKinds {kind : ForestKind} {nodes : List Interior}
    (h : ∀ node ∈ nodes, node.rule.kind = kind.rule ∧
      ∀ edge ∈ node.edges, edge.predictor.kind = kind.predictor) :
    (nodes.map Interior.emittedKinds).sum =
      nodes.length • kind.nodeKinds + (nodes.flatMap Interior.children).length • {"Sum"} := by
  induction nodes with
  | nil => rfl
  | cons node behind ih =>
      obtain ⟨⟨hRule, hEdges⟩, hBehind⟩ := List.forall_mem_cons.mp h
      rw [List.map_cons, List.sum_cons, ih hBehind, Interior.emittedKinds_eq hRule hEdges,
        List.length_cons, List.flatMap_cons, List.length_append, succ_nsmul, add_nsmul]
      ac_rfl

namespace Forest

variable {forest : Forest} {kind : ForestKind}

theorem WellFormed.emittedKinds_eq (h : forest.WellFormed) (hKind : forest.OfKind kind) :
    forest.emittedKinds =
      forest.nodeCount • kind.nodeKinds + (forest.nodeCount - forest.treeCount) • {"Sum"} +
        ({"Constant"} + ({"Sum"} + Wiring.allKinds forest forest.nodeCount)) := by
  have hEdges : (forest.nodes.toList.flatMap Interior.children).length =
      forest.nodeCount - forest.treeCount := by
    have hLength := h.treeCount_add_length
    omega
  rw [emittedKinds, Interior.sum_emittedKinds hKind, hEdges, Array.length_toList]
  rfl

end Forest

namespace Graph

variable {forest : Forest} {kind : ForestKind} {width : Nat} {settings : Settings}

end Graph

end ForestGraph
