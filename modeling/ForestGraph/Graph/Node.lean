import ForestGraph.Forest.Evaluation
import ForestGraph.Graph.Evaluation

/-!
# Nodes of a computation graph

A node reads selections of elements through typed input ports and computes
typed output ports of fixed sizes.  Eight kinds of nodes are elementary; a
forest node evaluates a whole forest at once.

Programs may define further kinds of nodes, which the parts of a graph treat as
opaque.  Two kinds stand for these.  A `peel` node copies its input and is
wrapped in layers, one of which goes away each time the node is expanded.  A
`liar` node declares ports of one size and may compute ports of another.
-/

namespace ForestGraph

/-- The fixed values of a constant node, all of one type. -/
inductive Constants where
  | reals (numbers : List Float)
  | booleans (truths : List Bool)
  deriving DecidableEq

namespace Constants

/-- The type of the values. -/
def type : Constants → ElementType
  | reals _ => .real
  | booleans _ => .boolean

/-- The values. -/
def values : Constants → List Value
  | reals numbers => numbers.map Value.real
  | booleans truths => truths.map Value.boolean

end Constants

/-- A node, with the selections it reads. -/
inductive Node where
  /-- The input vector of the graph. -/
  | input (size : Nat)
  /-- Fixed values. -/
  | constant (constants : Constants)
  /-- The sum of all elements. -/
  | sum (input : Selection)
  /-- The negation of every element. -/
  | not (input : Selection)
  /-- The elements of `input0` or of `input1`, as the selector is false or true. -/
  | select (input0 input1 selector : Selection)
  /-- The first or the second element, as the selector is false or true. -/
  | multiplexer (elements selector : Selection)
  /-- The dot product of two vectors. -/
  | dotProduct (input1 input2 : Selection)
  /-- The comparison of two vectors, element by element. -/
  | compare (comparison : Comparison) (left right : Selection)
  /-- The three outputs of a forest. -/
  | forest (input : Selection) (ensemble : Forest)
  /-- A node that a program defines and that is expanded in several passes: the input
  itself, under a number of layers. -/
  | peel (depth : Nat) (input : Selection)
  /-- A node that a program defines and that breaks its declaration: one or two ports
  declared with one size and computed with another. -/
  | liar (declared produced : Nat) (two : Bool)
  deriving DecidableEq

/-- An input port: its name, the elements it reads and their type. -/
structure InputPort where
  name : String
  elements : Selection
  type : ElementType
  deriving DecidableEq

/-- An output port: its name, the type of its elements and their number. -/
structure OutputPort where
  name : String
  type : ElementType
  size : Nat
  deriving DecidableEq

/-- The ports of a forest node and the named outputs of a forest graph. -/
inductive ForestPort where
  | output
  | treeOutputs
  | edgeIndicator
  deriving DecidableEq

namespace ForestPort

/-- The name of a port. -/
def name : ForestPort → String
  | output => "output"
  | treeOutputs => "treeOutputs"
  | edgeIndicator => "edgeIndicatorVector"

/-- The index of a port. -/
def index : ForestPort → Nat
  | output => 0
  | treeOutputs => 1
  | edgeIndicator => 2

/-- All ports, in the order of their indices. -/
def all : List ForestPort :=
  [output, treeOutputs, edgeIndicator]

end ForestPort

/-- The values of the ports of a forest node. -/
def Outcome.ports (outcome : Outcome) : List (List Value) :=
  [[.real outcome.output], outcome.treeOutputs.map Value.real,
    outcome.edgeIndicator.map Value.boolean]

namespace Node

/-- The name of the kind of a node. -/
def kind : Node → String
  | input _ => "Input"
  | constant _ => "Constant"
  | sum _ => "Sum"
  | not _ => "Not"
  | select .. => "Select"
  | multiplexer .. => "Multiplexer"
  | dotProduct .. => "DotProduct"
  | compare .. => "Compare"
  | forest .. => "Forest"
  | peel .. => "Peel"
  | liar .. => "Liar"

/-- The input ports of a node. -/
def inputs : Node → List InputPort
  | input _ | constant _ | liar .. => []
  | sum elements => [⟨"input", elements, .real⟩]
  | not elements => [⟨"input", elements, .boolean⟩]
  | select input0 input1 selector =>
      [⟨"input0", input0, .real⟩, ⟨"input1", input1, .real⟩, ⟨"selector", selector, .boolean⟩]
  | multiplexer elements selector =>
      [⟨"elements", elements, .boolean⟩, ⟨"selector", selector, .boolean⟩]
  | dotProduct input1 input2 => [⟨"input1", input1, .real⟩, ⟨"input2", input2, .real⟩]
  | compare _ left right => [⟨"lhs", left, .real⟩, ⟨"rhs", right, .real⟩]
  | forest elements _ => [⟨"input", elements, .real⟩]
  | peel _ elements => [⟨"input", elements, .real⟩]

/-- The output ports of a node. -/
def outputs : Node → List OutputPort
  | input size => [⟨"output", .real, size⟩]
  | constant constants => [⟨"output", constants.type, constants.values.length⟩]
  | sum _ | dotProduct .. => [⟨"output", .real, 1⟩]
  | not elements => [⟨"output", .boolean, elements.length⟩]
  | select input0 _ _ => [⟨"output", .real, input0.length⟩]
  | multiplexer .. => [⟨"output", .boolean, 1⟩]
  | compare _ left _ => [⟨"output", .boolean, left.length⟩]
  | forest _ ensemble =>
      [⟨ForestPort.output.name, .real, 1⟩,
        ⟨ForestPort.treeOutputs.name, .real, ensemble.treeCount⟩,
        ⟨ForestPort.edgeIndicator.name, .boolean, ensemble.edgeCount⟩]
  | peel _ elements => [⟨"output", .real, elements.length⟩]
  | liar declared _ two => List.replicate (if two then 2 else 1) ⟨"output", .real, declared⟩

/-- Whether an extent is the one that is needed. -/
def checkExtent (expected : Expectation) (needed actual : Nat) : Except Error Unit :=
  if actual = needed then .ok () else .error (.extent expected actual)

/-- The constraints between the lengths of the selections a node reads. -/
def checkShape : Node → Except Error Unit
  | select input0 input1 selector => do
      checkExtent (.inputPort input0.length "input1") input0.length input1.length
      checkExtent .selector 1 selector.length
  | multiplexer elements selector => do
      checkExtent .multiplexed 2 elements.length
      checkExtent .selector 1 selector.length
  | dotProduct input1 input2 =>
      checkExtent (.inputPort input1.length "input2") input1.length input2.length
  | compare _ left right =>
      checkExtent (.inputPort left.length "rhs") left.length right.length
  | forest elements ensemble =>
      if ensemble.requiredDimension ≤ elements.length then .ok ()
      else .error (.extent (.leadingFeatures ensemble.requiredDimension) elements.length)
  | input _ | constant _ | sum _ | not _ | peel .. | liar .. => .ok ()

/-- The values of the output ports, from the input vector of the graph and the
values of the nodes before. -/
def compute (node : Node) (vector : List Float) (known : Evaluation) :
    Except Error (List (List Value)) :=
  match node with
  | input size => do
      checkExtent (.inputFeatures size) size vector.length
      return [vector.map Value.real]
  | constant constants => .ok [constants.values]
  | sum elements => do
      let numbers ← known.readReals elements
      return [[.real (sequentialSum numbers)]]
  | not elements => do
      let truths ← known.readBooleans elements
      return [truths.map (fun truth => .boolean (!truth))]
  | select input0 input1 selector => do
      let chosen := if (← known.readSelector selector) then input1 else input0
      let values ← known.read chosen
      return [values]
  | multiplexer elements selector => do
      let key ← known.readSelector selector
      let chosen ← elements.element key.toNat
      let values ← known.read chosen
      return [values]
  | dotProduct input1 input2 => do
      let left ← known.readReals input1
      let right ← known.readReals input2
      return [[.real (ForestGraph.dotProduct left right)]]
  | compare comparison left right => do
      let left ← known.readReals left
      let right ← known.readReals right
      return [(left.zip right).map (fun pair => .boolean (comparison.holds pair.1 pair.2))]
  | forest elements ensemble => do
      let vector ← known.readReals elements
      let outcome ← ensemble.evaluate vector
      return outcome.ports
  | peel _ elements => do
      let numbers ← known.readReals elements
      return [numbers.map Value.real]
  | liar _ produced _ => .ok [List.replicate produced (.real 7)]

/-- The node with every selection it reads replaced, in order. -/
def mapInputsM {m : Type → Type} [Monad m] (replace : Selection → m Selection) :
    Node → m Node
  | input size => pure (input size)
  | constant constants => pure (constant constants)
  | sum elements => do return sum (← replace elements)
  | not elements => do return not (← replace elements)
  | select input0 input1 selector => do
      return select (← replace input0) (← replace input1) (← replace selector)
  | multiplexer elements selector => do
      return multiplexer (← replace elements) (← replace selector)
  | dotProduct input1 input2 => do
      return dotProduct (← replace input1) (← replace input2)
  | compare comparison left right => do
      return compare comparison (← replace left) (← replace right)
  | forest elements ensemble => do return forest (← replace elements) ensemble
  | peel depth elements => do return peel depth (← replace elements)
  | liar declared produced two => pure (liar declared produced two)

/-- Whether a node is elementary or evaluates a forest. -/
def isStandard : Node → Bool
  | peel .. | liar .. => false
  | _ => true

/-- Whether a node evaluates a forest. -/
def isForest : Node → Bool
  | forest .. => true
  | _ => false

end Node

end ForestGraph
