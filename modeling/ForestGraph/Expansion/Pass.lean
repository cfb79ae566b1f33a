import ForestGraph.Expansion.Forest
import ForestGraph.Settings.Basic

/-!
# Expanding a graph

An expanding pass replaces every forest node by elementary nodes, takes one
layer off every peel node, and copies all other nodes.  Passes follow one
another until a pass only copies or the largest number of passes is reached.
-/

namespace ForestGraph

namespace Rebuild

/-- Expands one node of the old graph, and tells whether it did more than copy. -/
def expandNode (old : Nat) (node : Node) : RebuildM Bool :=
  match node with
  | .forest input ensemble => do
      ensemble.expand old input
      return true
  | .peel (depth + 1) input => do
      copyNode old (.peel depth input)
      return true
  | node => do
      copyNode old node
      return false

/-- Expands a graph as long as it changes, up to a number of further passes. -/
def expandMore : Nat → Graph × Bool → RebuildM Graph
  | 0, (graph, _) => return graph
  | _ + 1, (graph, false) => return graph
  | passes + 1, (graph, true) => do
      let next ← pass expandNode graph
      expandMore passes next

/-- Expands a graph.  The first pass is made whatever the limit. -/
def expand (old : Graph) : RebuildM Graph := do
  let first ← pass expandNode old
  let state ← get
  expandMore (state.options.maxPasses - 1) first

end Rebuild

namespace Graph

/-- The graph of an input of a given width and one forest, with the three
outputs of the forest under their names. -/
def ofForest (forest : Forest) (width : Nat) : Except Error Graph := do
  forest.validate
  if width < forest.requiredDimension then
    throw (.extent (.leadingFeatures forest.requiredDimension) width)
  let (graph, input) ← empty.add (.input width)
  let features ← graph.elements ⟨input, 0⟩
  let (graph, node) ← graph.add (.forest features forest)
  ForestPort.all.foldlM (fun graph port => do
    let elements ← graph.elements ⟨node, port.index⟩
    graph.addOutput port.name elements) graph

/-- The graph expanded under valid settings. -/
def expand (graph : Graph) (settings : Settings) : Except Error Graph := do
  settings.validate
  ((Rebuild.expand graph).run (Rebuild.start settings.rebuildOptions)).1

end Graph

end ForestGraph
