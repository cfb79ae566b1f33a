import ForestGraph.DeltaList.Cursor
import ForestGraph.Forest.Basic

/-!
# Evaluating a forest

Each tree is walked from its root to the leaf that the rules choose.  The value
of a tree is accumulated from the leaf upwards: every edge adds its prediction
to the value of the path below it.  The values of the trees are then summed in
order, the bias last.

Evaluation does not rely on the shape of the forest: a walk moves to greater
indices only, so it ends on any data.
-/

namespace ForestGraph

/-- One step of a walk: the number of the taken edge and its prediction. -/
structure Step where
  edge : Nat
  prediction : Float

/-- What a forest computes for one input. -/
structure Outcome where
  /-- The sum of the values of all trees and the bias. -/
  output : Float
  /-- The value of each tree. -/
  treeOutputs : List Float
  /-- Whether each edge is taken. -/
  edgeIndicator : List Bool

/-- The value of a path with the given predictions, from the root down. -/
def pathValue : List Float → Float
  | [] => 0
  | [prediction] => prediction
  | prediction :: below => sequentialSum [prediction, pathValue below]

/-- The numbers of the edges that are taken, in ascending order, as a list. -/
def Outcome.activeEdges (outcome : Outcome) : Except Error DeltaList :=
  DeltaList.ofSorted
    ((outcome.edgeIndicator.zipIdx.filter (fun flag => flag.1)).map
      (fun flag => flag.2.toUInt64))

namespace Forest

/-- Walks from node `current` of a tree to a leaf within a number of steps. -/
def walkFrom (forest : Forest) (tree : Nat) (input : List Float) :
    Nat → Nat → Except Error (List Step)
  | 0, _ => .error (.endlessTree tree)
  | steps + 1, current => do
      let node ← forest.node current
      let decision ← node.rule.holds input
      let edge := node.edge decision
      let prediction ← edge.predictor.predict input
      let step : Step := ⟨node.firstEdge + decision.toNat, prediction⟩
      match edge.target with
      | .leaf => return [step]
      | .interior child =>
          if current < child then
            let below ← walkFrom forest tree input steps child
            return step :: below
          else throw (.childNotLater current child)

/-- Walks a tree from its root to a leaf. -/
def walk (forest : Forest) (tree : Nat) (input : List Float) : Except Error (List Step) := do
  let root ← forest.rootOf tree
  forest.walkFrom tree input (forest.nodeCount + 1) root

/-- The value of one tree. -/
def treeOutput (forest : Forest) (tree : Nat) (input : List Float) : Except Error Float := do
  let path ← forest.walk tree input
  return pathValue (path.map Step.prediction)

/-- Walks a tree and checks that the edges of the forest include those taken. -/
def walkInside (forest : Forest) (input : List Float) (tree : Nat) :
    Except Error (List Step) := do
  let path ← forest.walk tree input
  match path.find? (fun step => decide (forest.edgeCount ≤ step.edge)) with
  | some step => throw (.edgeOutside tree (Index.capped step.edge) forest.edgeCount)
  | none => return path

/-- The outcome of walking every tree in turn. -/
def evaluate (forest : Forest) (input : List Float) : Except Error Outcome := do
  let paths ← (List.range forest.treeCount).mapM (forest.walkInside input)
  let taken := paths.flatMap (fun path => path.map Step.edge)
  let treeOutputs := paths.map (fun path => pathValue (path.map Step.prediction))
  return {
    output := sequentialSum (treeOutputs ++ [forest.bias])
    treeOutputs := treeOutputs
    edgeIndicator := (List.range forest.edgeCount).map taken.contains
  }

/-- The output of a forest. -/
def predict (forest : Forest) (input : List Float) : Except Error Float := do
  let outcome ← forest.evaluate input
  return outcome.output

/-- The outcomes of several inputs. -/
def evaluateAll (forest : Forest) (rows : List (List Float)) : Except Error (List Outcome) :=
  rows.mapM forest.evaluate

/-- The outputs of several inputs. -/
def predictAll (forest : Forest) (rows : List (List Float)) : Except Error (List Float) :=
  rows.mapM forest.predict

end Forest

end ForestGraph
