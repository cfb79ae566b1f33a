/-!
# Arithmetic on binary64 numbers

Sums and products of vectors accumulate from the left, starting at zero.  The
association is fixed because floating-point addition is not associative:
whoever wants the same last bit has to add in the same order.
-/

namespace ForestGraph

/-- The sum `((0 + x₀) + x₁) + ...`. -/
def sequentialSum (values : List Float) : Float :=
  values.foldl (fun total value => total + value) 0

/-- The sum of products `((0 + x₀ * y₀) + x₁ * y₁) + ...` over the entries that
both vectors have. -/
def dotProduct (left right : List Float) : Float :=
  (left.zip right).foldl (fun total pair => total + pair.1 * pair.2) 0

@[simp] theorem sequentialSum_nil : sequentialSum [] = 0 := rfl

@[simp] theorem dotProduct_nil_left (right : List Float) :
    dotProduct [] right = 0 := rfl

@[simp] theorem dotProduct_nil_right (left : List Float) :
    dotProduct left [] = 0 := by
  simp [dotProduct]

/-- The larger of two numbers; a NaN gives way to the other operand. -/
def larger (left right : Float) : Float :=
  if left.isNaN then right
  else if right.isNaN then left
  else if left < right then right
  else left

/-- The six ways to compare two numbers. -/
inductive Comparison where
  | greater
  | greaterOrEqual
  | less
  | lessOrEqual
  | equal
  | notEqual
  deriving DecidableEq

namespace Comparison

/-- Whether a comparison holds.  Every comparison with a NaN is false, except
that a NaN differs from everything. -/
def holds : Comparison → Float → Float → Bool
  | greater, left, right => decide (left > right)
  | greaterOrEqual, left, right => decide (left ≥ right)
  | less, left, right => decide (left < right)
  | lessOrEqual, left, right => decide (left ≤ right)
  | equal, left, right => left == right
  | notEqual, left, right => left != right

/-- The operator sign of a comparison. -/
def symbol : Comparison → String
  | greater => ">"
  | greaterOrEqual => ">="
  | less => "<"
  | lessOrEqual => "<="
  | equal => "=="
  | notEqual => "!="

/-- The name of a comparison. -/
def name : Comparison → String
  | greater => "Greater"
  | greaterOrEqual => "GreaterOrEqual"
  | less => "Less"
  | lessOrEqual => "LessOrEqual"
  | equal => "Equal"
  | notEqual => "NotEqual"

/-- Every comparison, in a fixed order. -/
def all : List Comparison :=
  [greater, greaterOrEqual, less, lessOrEqual, equal, notEqual]

/-- The comparison with a given name. -/
def ofName? (text : String) : Option Comparison :=
  all.find? (fun comparison => comparison.name == text)

end Comparison

end ForestGraph
