import ForestGraph.Error
import ForestGraph.Number.Arithmetic
import ForestGraph.Number.Layout

/-!
# Affine functions of the leading features

An affine function reads as many leading entries of the input as it has
weights, and fails on an input with fewer.
-/

namespace ForestGraph

/-- The function `weights · input + bias`. -/
structure Affine where
  weights : List Float
  bias : Float
  deriving BEq, DecidableEq

namespace Affine

/-- The number of leading features that are read. -/
def width (function : Affine) : Nat :=
  function.weights.length

/-- The index of the last feature that is read. -/
def lastFeature? (function : Affine) : Option Nat :=
  if function.width = 0 then none else some (function.width - 1)

/-- The value of the function. -/
def apply (function : Affine) (input : List Float) : Except Error Float :=
  if function.width ≤ input.length then
    let features := input.take function.width
    .ok (sequentialSum [dotProduct function.weights features, function.bias])
  else .error (.extent (.leadingFeatures function.width) input.length)

/-- The fields shown in inspection texts. -/
def inspectFields (function : Affine) : List (String × String) :=
  [("weights", Inspect.list (function.weights.map Layout.structural.write)),
   ("bias", Layout.structural.write function.bias)]

theorem apply_eq_error_iff {function : Affine} {input : List Float} {error : Error} :
    function.apply input = .error error ↔
      input.length < function.width ∧
        error = .extent (.leadingFeatures function.width) input.length := by
  unfold apply
  split
  · simp; omega
  · simp [eq_comm]; omega

end Affine

end ForestGraph
