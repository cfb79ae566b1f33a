import ForestGraph.Forest.Rule

/-!
# Forests

A forest is an ensemble of binary decision trees.  The interior nodes of all
trees share one array; leaves are implicit, as an edge either ends at a leaf or
leads to an interior node.  Children come after their parents, and the two
edges of node `i` carry the numbers `2 * i` and `2 * i + 1`.

The type itself only holds the data.  `Forest.validate` decides whether they
have that shape, and `Forest.split`, which grows a forest node by node, keeps it.
-/

namespace ForestGraph

/-- Where an edge leads. -/
inductive Target where
  | leaf
  | interior (node : Nat)
  deriving DecidableEq

namespace Target

/-- The interior node an edge leads to. -/
def node? : Target → Option Nat
  | leaf => none
  | interior node => some node

/-- Whether an edge leads to an interior node. -/
def isInterior (target : Target) : Bool :=
  target.node?.isSome

/-- The inspection text of a target. -/
def inspect : Target → String
  | leaf => "Leaf"
  | interior node => s!"Interior({node})"

end Target

/-- An edge: what it contributes when it is taken, and where it leads. -/
structure Edge where
  predictor : Predictor
  target : Target
  deriving BEq, DecidableEq

/-- An interior node: a rule, the edges taken when it fails and when it holds,
and the number of the first of them. -/
structure Interior where
  rule : Rule
  onFalse : Edge
  onTrue : Edge
  firstEdge : Nat
  deriving BEq, DecidableEq

namespace Interior

/-- The edge taken for a decision. -/
def edge (node : Interior) (decision : Bool) : Edge :=
  if decision then node.onTrue else node.onFalse

/-- Both edges, in the order of their numbers. -/
def edges (node : Interior) : List Edge :=
  [node.onFalse, node.onTrue]

/-- The interior nodes that the edges lead to, in order. -/
def children (node : Interior) : List Nat :=
  node.edges.filterMap (fun edge => edge.target.node?)

/-- The last features read by the rule and by the predictors. -/
def lastFeatures (node : Interior) : List Nat :=
  (node.rule.lastFeature? :: node.edges.map (fun edge => edge.predictor.lastFeature?)).filterMap id

/-- A node whose edges both end at leaves. -/
def ofLeaves (rule : Rule) (onFalse onTrue : Predictor) (firstEdge : Nat) : Interior :=
  ⟨rule, ⟨onFalse, .leaf⟩, ⟨onTrue, .leaf⟩, firstEdge⟩

/-- The node with one of its edges led to another node. -/
def redirect (node : Interior) (decision : Bool) (target : Nat) : Interior :=
  if decision then
    { node with onTrue := { node.onTrue with target := .interior target } }
  else { node with onFalse := { node.onFalse with target := .interior target } }

/-- The children of a node are where its edges lead. -/
theorem mem_children_iff {node : Interior} {child : Nat} :
    child ∈ node.children ↔ ∃ decision, (node.edge decision).target = .interior child := by
  simp only [children, edges, List.mem_filterMap, List.mem_cons, List.not_mem_nil, or_false,
    edge]
  constructor
  · rintro ⟨edge, rfl | rfl, hTarget⟩
    · exact ⟨false, by cases h : node.onFalse.target <;> simp_all [Target.node?]⟩
    · exact ⟨true, by cases h : node.onTrue.target <;> simp_all [Target.node?]⟩
  · rintro ⟨decision, hTarget⟩
    cases decision with
    | false => exact ⟨node.onFalse, .inl rfl, by simp_all [Target.node?]⟩
    | true => exact ⟨node.onTrue, .inr rfl, by simp_all [Target.node?]⟩

end Interior

/-- The number of edges of an interior node. -/
def edgesPerNode : Nat := 2

/-- An ensemble of trees over one array of interior nodes. -/
structure Forest where
  nodes : Array Interior
  roots : List Nat
  bias : Float
  deriving BEq, DecidableEq

/-- The place of a new interior node. -/
inductive Place where
  /-- The root of a new tree. -/
  | root
  /-- The leaf at the end of an edge, given by its position, 0 or 1. -/
  | child (parent position : Nat)
  deriving DecidableEq

/-- A new interior node and its place. -/
structure Split where
  place : Place
  rule : Rule
  onFalse : Predictor
  onTrue : Predictor

namespace Forest

/-- The forest without trees. -/
def empty : Forest :=
  ⟨#[], [], 0⟩

/-- The number of trees. -/
def treeCount (forest : Forest) : Nat :=
  forest.roots.length

/-- The number of interior nodes of all trees. -/
def nodeCount (forest : Forest) : Nat :=
  forest.nodes.size

/-- The number of edges of all trees. -/
def edgeCount (forest : Forest) : Nat :=
  forest.nodeCount * edgesPerNode

/-- The interior node with a given index. -/
def node (forest : Forest) (index : Nat) : Except Error Interior :=
  match forest.nodes[index]? with
  | some node => .ok node
  | none => .error (.outOfBounds index forest.nodeCount)

/-- The root of a tree. -/
def rootOf (forest : Forest) (tree : Nat) : Except Error Nat :=
  match forest.roots[tree]? with
  | some root => .ok root
  | none => .error (.outOfBounds tree forest.treeCount)

/-- Whether a node is the root of some tree. -/
def isRoot (forest : Forest) (node : Nat) : Bool :=
  forest.roots.contains node

/-- The forest with a number added to its bias. -/
def addToBias (forest : Forest) (value : Float) : Forest :=
  { forest with bias := forest.bias + value }

/-- The last features read by all rules and predictors. -/
def lastFeatures (forest : Forest) : List Nat :=
  forest.nodes.toList.flatMap Interior.lastFeatures

/-- The greatest index behind a feature that any rule or predictor reads; zero if
none is read.  Behind the largest index stands zero, so a feature of that index
asks for nothing here, although no input has it. -/
def requiredDimension (forest : Forest) : Nat :=
  forest.lastFeatures.foldl (fun dimension feature => max dimension (Index.next feature)) 0

/-- The decision that leads along the edge at a position. -/
def decisionAt? : Nat → Option Bool
  | 0 => some false
  | 1 => some true
  | _ => none

/-- Adds an interior node whose edges end at leaves, as a new root or in place
of a leaf, and gives its index. -/
def split (forest : Forest) (action : Split) : Except Error (Forest × Nat) :=
  let index := forest.nodeCount
  let fresh := Interior.ofLeaves action.rule action.onFalse action.onTrue (index * edgesPerNode)
  match action.place with
  | .root =>
      .ok ({ forest with nodes := forest.nodes.push fresh, roots := forest.roots ++ [index] },
        index)
  | .child parent position => do
      let node ← forest.node parent
      match decisionAt? position with
      | none => throw (.noSuchEdge position parent)
      | some decision =>
          if (node.edge decision).target.isInterior then
            throw (.edgeAlreadySplit position parent)
          else
            let nodes := forest.nodes.setIfInBounds parent (node.redirect decision index)
            return ({ forest with nodes := nodes.push fresh }, index)

@[simp] theorem nodeCount_empty : empty.nodeCount = 0 := rfl

@[simp] theorem treeCount_empty : empty.treeCount = 0 := rfl

theorem node_eq_ok_iff {forest : Forest} {index : Nat} {node : Interior} :
    forest.node index = .ok node ↔ forest.nodes[index]? = some node := by
  unfold Forest.node
  cases forest.nodes[index]? <;> simp

theorem rootOf_eq_ok_iff {forest : Forest} {tree root : Nat} :
    forest.rootOf tree = .ok root ↔ forest.roots[tree]? = some root := by
  unfold rootOf
  cases forest.roots[tree]? <;> simp

theorem isRoot_iff {forest : Forest} {node : Nat} :
    forest.isRoot node = true ↔ node ∈ forest.roots := by
  simp [isRoot]

@[simp] theorem nodes_addToBias (forest : Forest) (value : Float) :
    (forest.addToBias value).nodes = forest.nodes := rfl

@[simp] theorem roots_addToBias (forest : Forest) (value : Float) :
    (forest.addToBias value).roots = forest.roots := rfl

/-- A root may be added to any forest. -/
theorem split_root (forest : Forest) (rule : Rule) (onFalse onTrue : Predictor) :
    forest.split ⟨.root, rule, onFalse, onTrue⟩ =
      .ok (⟨forest.nodes.push
          (Interior.ofLeaves rule onFalse onTrue (forest.nodeCount * edgesPerNode)),
        forest.roots ++ [forest.nodeCount], forest.bias⟩, forest.nodeCount) := rfl

end Forest

end ForestGraph
