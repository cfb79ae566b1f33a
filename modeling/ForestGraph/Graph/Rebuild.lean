import Std.Data.HashMap
import ForestGraph.Graph.Basic

/-!
# Rebuilding a graph

A rebuild makes a new graph out of an old one, node by node.  It keeps links
from the output ports of the old graph to the elements of the new one that now
produce their values, so that later nodes can be pointed at the new elements.

A pass that succeeds hands the new graph out and leaves nothing behind.  A pass
that fails leaves the half-built graph and its links in place.
-/

namespace ForestGraph

/-- What nodes may ask about while they are rebuilt. -/
structure RebuildOptions where
  /-- The largest number of expanding passes. -/
  maxPasses : Nat
  /-- Whether the shape of a forest is checked before it is expanded. -/
  checkForests : Bool
  deriving DecidableEq

/-- The graph under construction and the links into it. -/
structure Rebuild where
  options : RebuildOptions
  graph : Graph
  links : Std.HashMap OutputRef Selection

/-- A computation that extends a graph under construction; what it has done by
the time it fails is kept. -/
abbrev RebuildM := ExceptT Error (StateM Rebuild)

namespace Rebuild

/-- A rebuild that has not begun. -/
def start (options : RebuildOptions) : Rebuild :=
  ⟨options, Graph.empty, ∅⟩

/-- Adds a node to the new graph and gives its index. -/
def add (node : Node) : RebuildM Nat := do
  let state ← get
  match state.graph.add node with
  | .ok (graph, index) =>
      set { state with graph := graph }
      return index
  | .error error => throw error

/-- All elements of a port of the new graph. -/
def elements (output : OutputRef) : RebuildM Selection := do
  let state ← get
  match state.graph.elements output with
  | .ok selection => return selection
  | .error error => throw error

/-- Adds a node with one output port and gives the elements of that port. -/
def emit (node : Node) : RebuildM Selection := do
  let index ← add node
  elements ⟨index, 0⟩

/-- Records the elements that now produce the values of an old port. -/
def link (old : OutputRef) (new : Selection) : RebuildM Unit :=
  modify fun state => { state with links := state.links.insert old new }

/-- Links the ports of an old node to the same ports of a new one. -/
def linkAll (old new : Nat) : RebuildM Unit := do
  let state ← get
  match state.graph.node new with
  | .error error => throw error
  | .ok node =>
      (List.range node.outputs.length).forM fun port => do
        let selection ← elements ⟨new, port⟩
        link ⟨old, port⟩ selection

/-- The new element that produces the value of an old one. -/
def followElement (links : Std.HashMap OutputRef Selection) (element : Element) :
    Except Error Selection :=
  match links[element.output]? with
  | none => .error (.notRebuilt element.output.node element.output.port)
  | some selection => selection.element element.index

/-- The new elements that produce the values of a selection of old ones. -/
def follow (selection : Selection) : RebuildM Selection := do
  let state ← get
  match selection.mapM (followElement state.links) with
  | .ok parts => return parts.flatten
  | .error error => throw error

/-- Copies an old node: the new one reads the elements that the links lead to. -/
def copyNode (old : Nat) (node : Node) : RebuildM Unit := do
  let copied ← node.mapInputsM follow
  let new ← add copied
  linkAll old new

/-- Copies the named outputs of an old graph. -/
def copyOutputs (outputs : NamedSelections) : RebuildM Unit :=
  outputs.forM fun (name, selection) => do
    let selection ← follow selection
    let state ← get
    match state.graph.addOutput name selection with
    | .ok graph => set { state with graph := graph }
    | .error error => throw error

/-- Rebuilds the nodes of an old graph in order; `step` tells whether it did
more than copy a node, and so does the result. -/
def rebuildNodes (step : Nat → Node → RebuildM Bool) :
    Nat → List Node → RebuildM Bool
  | _, [] => return false
  | index, node :: later => do
      let changed ← step index node
      let changedLater ← rebuildNodes step (index + 1) later
      return changed || changedLater

/-- One pass over an old graph: the new graph, and whether any step did more
than copy. -/
def pass (step : Nat → Node → RebuildM Bool) (old : Graph) : RebuildM (Graph × Bool) := do
  modify fun state => start state.options
  let changed ← rebuildNodes step 0 old.nodes.toList
  copyOutputs old.outputs
  let state ← get
  set (start state.options)
  return (state.graph, changed)

/-- A copy of a graph. -/
def copy (old : Graph) : RebuildM Graph := do
  let (new, _) ← pass (fun index node => do copyNode index node; return false) old
  return new

end Rebuild

end ForestGraph
