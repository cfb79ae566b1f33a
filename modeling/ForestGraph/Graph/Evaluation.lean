import ForestGraph.Graph.Selection
import ForestGraph.Graph.Value

/-!
# Computed values

An `Evaluation` holds what the nodes of a graph computed for one input: for
each node its ports, for each port its elements.  Elements of nodes that have
not been computed cannot be read.
-/

namespace ForestGraph

/-- The values of the ports of every node computed so far. -/
structure Evaluation where
  values : Array (List (List Value))
  deriving DecidableEq

namespace Evaluation

/-- Nothing computed yet. -/
def empty : Evaluation :=
  ⟨#[]⟩

/-- The evaluation with the ports of one more node. -/
def push (evaluation : Evaluation) (ports : List (List Value)) : Evaluation :=
  ⟨evaluation.values.push ports⟩

/-- The value of an element that has been computed. -/
def value? (evaluation : Evaluation) (element : Element) : Option Value :=
  (evaluation.values[element.output.node]?).bind fun ports =>
    (ports[element.output.port]?).bind fun values => values[element.index]?

/-- The value of an element. -/
def value (evaluation : Evaluation) (element : Element) : Except Error Value :=
  match evaluation.value? element with
  | some value => .ok value
  | none => .error (.notComputed element.output.node element.output.port element.index)

/-- The values of a selection. -/
def read (evaluation : Evaluation) (selection : Selection) : Except Error (List Value) :=
  selection.mapM evaluation.value

/-- The values of a selection of numbers. -/
def readReals (evaluation : Evaluation) (selection : Selection) :
    Except Error (List Float) := do
  let values ← evaluation.read selection
  values.mapM Value.asReal

/-- The values of a selection of truth values. -/
def readBooleans (evaluation : Evaluation) (selection : Selection) :
    Except Error (List Bool) := do
  let values ← evaluation.read selection
  values.mapM Value.asBoolean

/-- The value of a selection of a single truth value. -/
def readSelector (evaluation : Evaluation) (selection : Selection) : Except Error Bool := do
  let booleans ← evaluation.readBooleans selection
  match booleans with
  | [truth] => return truth
  | others => throw (.extent .selector others.length)

@[simp] theorem read_nil (evaluation : Evaluation) : evaluation.read [] = .ok [] := rfl

theorem value_eq_ok_iff {evaluation : Evaluation} {element : Element} {value : Value} :
    evaluation.value element = .ok value ↔ evaluation.value? element = some value := by
  unfold Evaluation.value
  cases evaluation.value? element <;> simp

theorem read_cons (evaluation : Evaluation) (element : Element) (later : Selection) :
    evaluation.read (element :: later) = (do
      let value ← evaluation.value element
      let values ← evaluation.read later
      return value :: values) := by
  simp [read]

theorem read_append (evaluation : Evaluation) (selection later : Selection) :
    evaluation.read (selection ++ later) = (do
      let values ← evaluation.read selection
      let more ← evaluation.read later
      return values ++ more) := by
  simp [read, List.mapM_append]

end Evaluation

end ForestGraph
