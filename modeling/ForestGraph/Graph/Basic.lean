import ForestGraph.Graph.Node

/-!
# Computation graphs

A graph is an array of nodes, each of which reads elements of nodes before it,
and a set of named outputs.  `Graph.add` checks every element that a new node
reads, so the order of the array is a topological order and the graph is
evaluated in one sweep.

A failed operation leaves the graph as it was.
-/

namespace ForestGraph

/-- Selections with names, in the order of the names. -/
abbrev NamedSelections := List (String × Selection)

namespace NamedSelections

/-- The selection with a given name. -/
def find? (outputs : NamedSelections) (name : String) : Option Selection :=
  match outputs with
  | [] => none
  | (present, selection) :: later =>
      if present = name then some selection else find? later name

/-- Adds a selection under a name, in place of any other with that name. -/
def insert (outputs : NamedSelections) (name : String) (selection : Selection) :
    NamedSelections :=
  match outputs with
  | [] => [(name, selection)]
  | (present, old) :: later =>
      if name = present then (name, selection) :: later
      else if name < present then (name, selection) :: (present, old) :: later
      else (present, old) :: insert later name selection

theorem find?_insert_self (outputs : NamedSelections) (name : String)
    (selection : Selection) : find? (insert outputs name selection) name = some selection := by
  induction outputs with
  | nil => simp [insert, find?]
  | cons entry later ih =>
      obtain ⟨present, old⟩ := entry
      simp only [insert]
      split
      · simp [find?]
      · split
        · simp [find?]
        · rename_i hne _
          simp [find?, Ne.symm hne, ih]

theorem find?_insert_of_ne (outputs : NamedSelections) {name other : String}
    (selection : Selection) (h : other ≠ name) :
    find? (insert outputs name selection) other = find? outputs other := by
  induction outputs with
  | nil => simp [insert, find?, Ne.symm h]
  | cons entry later ih =>
      obtain ⟨present, old⟩ := entry
      simp only [insert]
      split
      · rename_i heq
        subst heq
        simp [find?, Ne.symm h]
      · split
        · simp [find?, Ne.symm h]
        · simp [find?, ih]

end NamedSelections

/-- Nodes in topological order, and named outputs. -/
structure Graph where
  nodes : Array Node
  outputs : NamedSelections
  deriving DecidableEq

namespace Graph

/-- The graph without nodes. -/
def empty : Graph :=
  ⟨#[], []⟩

/-- The number of nodes. -/
def size (graph : Graph) : Nat :=
  graph.nodes.size

/-- The node with a given index. -/
def node (graph : Graph) (index : Nat) : Except Error Node :=
  match graph.nodes[index]? with
  | some node => .ok node
  | none => .error (.outOfBounds index graph.size)

/-- The number of nodes of a kind. -/
def count (graph : Graph) (kind : String) : Nat :=
  graph.nodes.toList.countP (fun node => node.kind == kind)

/-- The kinds of the nodes, each with the number of its nodes. -/
def census (graph : Graph) : List (String × Nat) :=
  (graph.nodes.toList.map Node.kind).eraseDups.map fun kind => (kind, graph.count kind)

/-- Checks one element that an input port of a new node reads. -/
def checkElement (graph : Graph) (reader : Node) (input : InputPort) (element : Element) :
    Except Error Unit := do
  let index := element.output.node
  let producer ← graph.node index
  match producer.outputs[element.output.port]? with
  | none => throw (.noSuchPort index element.output.port)
  | some port =>
      if port.size ≤ element.index then throw (.outOfBounds element.index port.size)
      else if port.type ≠ input.type then
        throw (.elementType reader.kind input.name input.type index port.name port.type)
      else return ()

/-- Checks every element that a new node reads, then its shape. -/
def check (graph : Graph) (node : Node) : Except Error Unit := do
  node.inputs.forM fun input => input.elements.forM (graph.checkElement node input)
  node.checkShape

/-- Appends a node that passes the checks, and gives its index. -/
def add (graph : Graph) (node : Node) : Except Error (Graph × Nat) := do
  graph.check node
  return ({ graph with nodes := graph.nodes.push node }, graph.size)

/-- The declaration of a port. -/
def port (graph : Graph) (output : OutputRef) : Except Error OutputPort := do
  let node ← graph.node output.node
  match node.outputs[output.port]? with
  | some port => return port
  | none => throw (.outOfBounds output.port node.outputs.length)

/-- All elements of a port. -/
def elements (graph : Graph) (output : OutputRef) : Except Error Selection := do
  let port ← graph.port output
  return Selection.ofOutput output port.size

/-- The type of the elements of a port. -/
def elementType (graph : Graph) (output : OutputRef) : Except Error ElementType := do
  let port ← graph.port output
  return port.type

/-- Checks one element of a named output. -/
def checkOutputElement (graph : Graph) (element : Element) : Except Error Unit := do
  let node ← graph.node element.output.node
  let size := match node.outputs[element.output.port]? with
    | some port => port.size
    | none => 0
  if size ≤ element.index then throw (.outOfBounds element.index size) else return ()

/-- Names a selection of existing elements, in place of any other of that name. -/
def addOutput (graph : Graph) (name : String) (selection : Selection) :
    Except Error Graph := do
  selection.forM graph.checkOutputElement
  return { graph with outputs := graph.outputs.insert name selection }

/-- The selection of a named output. -/
def output? (graph : Graph) (name : String) : Option Selection :=
  graph.outputs.find? name

/-- Computes one node and checks the result against its declaration. -/
def computeNode (vector : List Float) (known : Evaluation) (node : Node) :
    Except Error Evaluation := do
  let ports ← node.compute vector known
  if ports.map List.length = node.outputs.map OutputPort.size then
    return known.push ports
  else throw (.undeclaredShape node.kind known.values.size)

/-- The values of all nodes for an input vector. -/
def evaluate (graph : Graph) (vector : List Float) : Except Error Evaluation :=
  graph.nodes.toList.foldlM (computeNode vector) Evaluation.empty

/-- The values of a named output for an input vector. -/
def computeOutput (graph : Graph) (vector : List Float) (name : String) :
    Except Error (List Value) :=
  match graph.output? name with
  | none => .error (.noSuchOutput name)
  | some selection => do
      let evaluation ← graph.evaluate vector
      evaluation.read selection

@[simp] theorem size_empty : empty.size = 0 := rfl

@[simp] theorem evaluate_empty (vector : List Float) :
    empty.evaluate vector = .ok Evaluation.empty := rfl

/-- An added node is appended and gets the next index. -/
theorem add_eq_ok_iff {graph : Graph} {node : Node} {result : Graph × Nat} :
    graph.add node = .ok result ↔
      graph.check node = .ok () ∧
        result = ({ graph with nodes := graph.nodes.push node }, graph.size) := by
  simp only [add]
  cases graph.check node <;> simp [bind, Except.bind, pure, Except.pure, eq_comm]

theorem node_eq_ok_iff {graph : Graph} {index : Nat} {node : Node} :
    graph.node index = .ok node ↔ graph.nodes[index]? = some node := by
  unfold Graph.node
  cases graph.nodes[index]? <;> simp

theorem port_eq_ok_iff {graph : Graph} {output : OutputRef} {port : OutputPort} :
    graph.port output = .ok port ↔
      ∃ node, graph.nodes[output.node]? = some node ∧ node.outputs[output.port]? = some port := by
  unfold Graph.port Graph.node
  cases graph.nodes[output.node]? with
  | none => simp [bind, Except.bind]
  | some node =>
      cases hPort : node.outputs[output.port]? <;>
        simp [hPort, bind, Except.bind, pure, Except.pure, throw, throwThe, MonadExceptOf.throw]

end Graph

end ForestGraph
