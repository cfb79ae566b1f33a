import ForestGraph.Forest.Basic

/-!
# Texts of a forest

`Forest.display` is an overview for readers, one line for the forest and for
each tree, node and edge.  `Forest.inspect` shows the data as they are stored.
-/

namespace ForestGraph

/-- The inspection text of an edge. -/
def Edge.inspect (edge : Edge) : String :=
  Inspect.record "Edge"
    [("predictor", edge.predictor.inspect), ("target", edge.target.inspect)]

/-- The inspection text of a node. -/
def Interior.inspect (node : Interior) : String :=
  Inspect.record "InteriorNode"
    [("split_rule", node.rule.inspect),
     ("outgoing_edges", Inspect.list (node.edges.map Edge.inspect)),
     ("first_edge_index", toString node.firstEdge)]

/-- Where an edge leads, in words. -/
def Target.display : Target → String
  | leaf => "leaf"
  | interior node => s!"node {node}"

namespace Forest

/-- The inspection text of a forest. -/
def inspect (forest : Forest) : String :=
  Inspect.record "Forest"
    [("interior_nodes", Inspect.list (forest.nodes.toList.map Interior.inspect)),
     ("roots", Inspect.list (forest.roots.map toString)),
     ("bias", Layout.structural.write forest.bias)]

/-- The line of one edge. -/
def edgeLine (number : Nat) (edge : Edge) : String :=
  s!"    edge {number} -> " ++ edge.target.display ++ ": " ++ edge.predictor.inspect ++ "\n"

/-- The lines of one node and its edges. -/
def nodeLines (index : Nat) (node : Interior) : String :=
  s!"  node {index}: split " ++ node.rule.inspect ++ "\n" ++
    edgeLine node.firstEdge node.onFalse ++ edgeLine (Index.next node.firstEdge) node.onTrue

/-- The overview of a forest. -/
def display (forest : Forest) : String :=
  let trees := forest.treeCount
  let nodes := forest.nodeCount
  let edges := forest.edgeCount
  let bias := Layout.plain.write forest.bias
  let treeLines := forest.roots.zipIdx.map fun (root, tree) => s!"  tree {tree}: root {root}\n"
  let nodeLines := forest.nodes.toList.zipIdx.map fun (node, index) => nodeLines index node
  s!"Forest: {trees} trees, {nodes} interior nodes, {edges} edges, bias {bias}\n" ++
    String.join treeLines ++ String.join nodeLines

end Forest

end ForestGraph
