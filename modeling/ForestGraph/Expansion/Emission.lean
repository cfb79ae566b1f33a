import ForestGraph.Graph.Rebuild

/-!
# Emitting rules and predictors

A rule or predictor is emitted as elementary nodes that compute, from the
selection that holds the features, the same value as its direct evaluation.
Nothing is emitted if the selection has too few elements.
-/

namespace ForestGraph

open Rebuild

/-- Emits constant numbers. -/
def emitReals (numbers : List Float) : RebuildM Selection :=
  emit (.constant (.reals numbers))

/-- Emits constant truth values. -/
def emitBooleans (truths : List Bool) : RebuildM Selection :=
  emit (.constant (.booleans truths))

/-- The part of a selection that an operation needs, or its failure. -/
def part (selection : Except Error Selection) : RebuildM Selection :=
  match selection with
  | .ok selection => return selection
  | .error error => throw error

/-- Emits an affine function: the dot product with the weights, and the sum of
that product and the bias. -/
def Affine.emit (function : Affine) (features : Selection) : RebuildM Selection := do
  let features ← part (features.range 0 function.width)
  let weights ← emitReals function.weights
  let product ← Rebuild.emit (.dotProduct features weights)
  let bias ← emitReals [function.bias]
  Rebuild.emit (.sum (product ++ bias))

/-- Emits a rule as one truth value. -/
def Rule.emit (rule : Rule) (features : Selection) : RebuildM Selection := do
  match rule with
  | .threshold index bound =>
      let feature ← part (features.element index)
      let bound ← emitReals [bound]
      Rebuild.emit (.compare .greater feature bound)
  | .linear function =>
      let value ← function.emit features
      let zero ← emitReals [0]
      Rebuild.emit (.compare .greater value zero)

/-- Emits a predictor as one number. -/
def Predictor.emit (predictor : Predictor) (features : Selection) : RebuildM Selection :=
  match predictor with
  | .constant value => emitReals [value]
  | .linear function => function.emit features

end ForestGraph
