import ForestGraph.Error
import ForestGraph.Number.Layout

/-!
# Values

The values that flow along the edges of a computation graph: numbers and truth
values.  `==` compares numbers as arithmetic does, so a NaN differs from itself.
-/

namespace ForestGraph

/-- A number or a truth value. -/
inductive Value where
  | real (number : Float)
  | boolean (truth : Bool)
  deriving BEq, DecidableEq

namespace Value

/-- The type of a value. -/
def type : Value → ElementType
  | real _ => .real
  | boolean _ => .boolean

/-- The number, if the value is one. -/
def asReal : Value → Except Error Float
  | real number => .ok number
  | boolean _ => .error .expectedReal

/-- The truth value, if the value is one. -/
def asBoolean : Value → Except Error Bool
  | boolean truth => .ok truth
  | real _ => .error .expectedBoolean

/-- The inspection text of a value. -/
def inspect : Value → String
  | real number => "Real(" ++ Layout.structural.write number ++ ")"
  | boolean truth => s!"Boolean({truth})"

@[simp] theorem asReal_real (number : Float) : (real number).asReal = .ok number := rfl

@[simp] theorem asBoolean_boolean (truth : Bool) : (boolean truth).asBoolean = .ok truth := rfl

end Value

end ForestGraph
