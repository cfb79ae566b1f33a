import ForestGraph.Forest.Affine

/-!
# Rules and predictors

An interior node of a tree decides by a `Rule` which of its two edges is taken,
and an edge contributes the value of its `Predictor`.  Both read a feature
vector, and both fail if it is too short.
-/

namespace ForestGraph

/-- How an interior node decides. -/
inductive Rule where
  /-- Whether one feature exceeds a bound. -/
  | threshold (feature : Nat) (bound : Float)
  /-- Whether an affine function is positive. -/
  | linear (function : Affine)
  deriving BEq, DecidableEq

/-- What an edge contributes. -/
inductive Predictor where
  /-- The same value for every input. -/
  | constant (value : Float)
  /-- The value of an affine function. -/
  | linear (function : Affine)
  deriving BEq, DecidableEq

/-- The entry of the input at a feature index. -/
def feature (input : List Float) (index : Nat) : Except Error Float :=
  match input[index]? with
  | some value => .ok value
  | none => .error (.outOfBounds index input.length)

namespace Rule

/-- The decision for an input. -/
def holds (rule : Rule) (input : List Float) : Except Error Bool :=
  match rule with
  | threshold index bound => do
      let value ← feature input index
      return decide (value > bound)
  | linear function => do
      let value ← function.apply input
      return decide (value > 0)

/-- The index of the last feature that is read. -/
def lastFeature? : Rule → Option Nat
  | threshold index _ => some index
  | linear function => function.lastFeature?

/-- The inspection text of a rule. -/
def inspect : Rule → String
  | threshold index bound =>
      Inspect.record "SingleFeatureThreshold"
        [("feature", toString index), ("threshold", Layout.structural.write bound)]
  | linear function => Inspect.record "LinearThreshold" function.inspectFields

end Rule

namespace Predictor

/-- The contribution for an input. -/
def predict (predictor : Predictor) (input : List Float) : Except Error Float :=
  match predictor with
  | constant value => .ok value
  | linear function => function.apply input

/-- The index of the last feature that is read. -/
def lastFeature? : Predictor → Option Nat
  | constant _ => none
  | linear function => function.lastFeature?

/-- The inspection text of a predictor. -/
def inspect : Predictor → String
  | constant value =>
      Inspect.record "ConstantPredictor" [("value", Layout.structural.write value)]
  | linear function => Inspect.record "LinearPredictor" function.inspectFields

end Predictor

end ForestGraph
