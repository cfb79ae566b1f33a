import ForestGraph.Expansion.Emission
import ForestGraph.Forest.Validity

/-!
# Expanding a forest

A forest node is replaced by elementary nodes.  The value of the subtree below
each interior node is emitted from the last node to the first, so that the
subtrees of children exist before their parents need them:

* an edge contributes its prediction, plus the value of the subtree it leads to;
* a subtree selects the contribution of one of its two edges by its rule.

The output adds the values of the roots and the bias.  Then the edge indicator
is wired from the first node to the last: a root takes one of its edges by its
rule alone, and any other node only if the edge that leads to it is taken.
-/

namespace ForestGraph

open Rebuild

/-- The emitted value of the subtree below a node, and its emitted decision. -/
structure Subtree where
  value : Selection
  decision : Selection

namespace Subtree

/-- The value of the subtree at `child`, from the subtrees of the nodes behind
`parent`. -/
def valueAt (later : List Subtree) (count parent child : Nat) : Except Error Selection :=
  if child ≤ parent then .error (.childNotLater parent child)
  else match later[child - (parent + 1)]? with
    | some subtree => .ok subtree.value
    | none => .error (.childOutside parent child count)

/-- Emits the contribution of an edge of node `parent`. -/
def emitEdge (features : Selection) (count parent : Nat) (later : List Subtree)
    (edge : Edge) : RebuildM Selection := do
  let prediction ← edge.predictor.emit features
  match edge.target with
  | .leaf => return prediction
  | .interior child =>
      let below ← part (valueAt later count parent child)
      emit (.sum (prediction ++ below))

/-- Emits the subtrees of the nodes from `index` on, the last one first. -/
def emitAll (features : Selection) (count : Nat) :
    Nat → List Interior → RebuildM (List Subtree)
  | _, [] => return []
  | index, node :: behind => do
      let later ← emitAll features count (index + 1) behind
      let onFalse ← emitEdge features count index later node.onFalse
      let onTrue ← emitEdge features count index later node.onTrue
      let decision ← node.rule.emit features
      let value ← emit (.select onFalse onTrue decision)
      return ⟨value, decision⟩ :: later

end Subtree

/-- The selections that are known while the edge indicator is wired. -/
structure Wiring where
  /-- Whether the edge to a node is taken, for the nodes that edges lead to,
  the latest first. -/
  incoming : List (Nat × Selection)
  /-- Whether an edge is taken, by its number, the latest first. -/
  edges : List (Nat × Selection)
  /-- The constant `false`, once it has been emitted. -/
  never : Option Selection

namespace Wiring

/-- Nothing wired. -/
def start : Wiring :=
  ⟨[], [], none⟩

/-- The constant `false`, emitted when it is needed for the first time. -/
def emitNever (wiring : Wiring) : RebuildM (Wiring × Selection) := do
  match wiring.never with
  | some never => return (wiring, never)
  | none =>
      let never ← emitBooleans [false]
      return ({ wiring with never := some never }, never)

/-- Emits whether each edge of a node is taken, from its decision. -/
def emitNode (forest : Forest) (wiring : Wiring) (index : Nat) (decision : Selection) :
    RebuildM (Wiring × Selection × Selection) := do
  if forest.isRoot index then
    let negated ← emit (.not decision)
    return (wiring, negated, decision)
  else
    match wiring.incoming.lookup index with
    | none => throw (.orphan index)
    | some reached =>
        let (wiring, never) ← wiring.emitNever
        let onFalse ← emit (.multiplexer (reached ++ never) decision)
        let onTrue ← emit (.multiplexer (never ++ reached) decision)
        return (wiring, onFalse, onTrue)

/-- Records whether an edge is taken, under its number and for the node it leads
to. -/
def record (forest : Forest) (wiring : Wiring) (number : Nat) (edge : Edge)
    (taken : Selection) : Except Error Wiring := do
  let wiring ← match edge.target with
    | .leaf => pure wiring
    | .interior child =>
        if child < forest.nodeCount then
          pure { wiring with incoming := (child, taken) :: wiring.incoming }
        else throw (.outOfBounds child forest.nodeCount)
  if number < forest.edgeCount then
    return { wiring with edges := (number, taken) :: wiring.edges }
  else throw (.outOfBounds (Index.capped number) forest.edgeCount)

/-- Wires the edges of the nodes from `index` on. -/
def emitAll (forest : Forest) :
    Nat → List (Interior × Subtree) → Wiring → RebuildM Wiring
  | _, [], wiring => return wiring
  | index, (node, subtree) :: behind, wiring => do
      let (wiring, onFalse, onTrue) ← emitNode forest wiring index subtree.decision
      let known := do
        let wiring ← record forest wiring node.firstEdge node.onFalse onFalse
        record forest wiring (node.firstEdge + 1) node.onTrue onTrue
      match known with
      | .ok wiring => emitAll forest (index + 1) behind wiring
      | .error error => throw error

/-- The indicators of all edges in the order of their numbers. -/
def collect (wiring : Wiring) (edgeCount : Nat) : Except Error Selection := do
  let parts ← (List.range edgeCount).mapM fun edge =>
    match wiring.edges.lookup edge with
    | some taken => .ok taken
    | none => .error (.unownedEdge edge)
  return parts.flatten

end Wiring

namespace Forest

/-- The emitted values of the trees. -/
def treeValues (forest : Forest) (subtrees : List Subtree) : Except Error Selection := do
  let parts ← forest.roots.zipIdx.mapM fun (root, tree) =>
    match subtrees[root]? with
    | some subtree => .ok subtree.value
    | none => .error (.treeRootOutside root tree forest.nodeCount)
  return parts.flatten

/-- Checks the shape of a forest, if forests are checked. -/
def requireShape (forest : Forest) : RebuildM Unit := do
  let state ← get
  if state.options.checkForests then
    match forest.validate with
    | .ok () => return ()
    | .error error => throw error
  else return ()

/-- Replaces a forest of any shape that reads a selection of the old graph, and
links the ports of its old node to the emitted elements. -/
def expandUnchecked (forest : Forest) (old : Nat) (input : Selection) : RebuildM Unit := do
  let features ← follow input
  let subtrees ← Subtree.emitAll features forest.nodeCount 0 forest.nodes.toList
  let trees ← part (forest.treeValues subtrees)
  let bias ← emitReals [forest.bias]
  let output ← emit (.sum (trees ++ bias))
  let wiring ← Wiring.emitAll forest 0 (forest.nodes.toList.zip subtrees) Wiring.start
  let edges ← part (wiring.collect forest.edgeCount)
  link ⟨old, ForestPort.output.index⟩ output
  link ⟨old, ForestPort.treeOutputs.index⟩ trees
  link ⟨old, ForestPort.edgeIndicator.index⟩ edges

/-- Replaces a forest, after a check of its shape if forests are checked. -/
def expand (forest : Forest) (old : Nat) (input : Selection) : RebuildM Unit := do
  forest.requireShape
  forest.expandUnchecked old input

end Forest

end ForestGraph
