import Mathlib.Data.List.Induction
import ForestGraph.Graph.Basic
import ForestGraph.Proofs.Reading

/-!
# Typed elements of a graph

A graph is typed by looking backwards: an element has a type if a node of the
graph declares it, and a node is well typed behind other nodes if every element
that it reads has the type of its input port there.  `Graph.check` accepts
exactly the well-typed nodes, so the nodes of every graph that was built by
`Graph.add` form a typed sequence.
-/

namespace ForestGraph

/-- An element that a node of a sequence declares, with the type of its port. -/
def Element.HasType (nodes : List Node) (type : ElementType) (element : Element) : Prop :=
  ∃ node port, nodes[element.output.node]? = some node ∧
    node.outputs[element.output.port]? = some port ∧
    element.index < port.size ∧ port.type = type

/-- A selection of declared elements of one type. -/
def Selection.HasType (nodes : List Node) (type : ElementType) (selection : Selection) : Prop :=
  ∀ element ∈ selection, element.HasType nodes type

/-- A node that reads elements of the right types of the nodes before, in
selections of the right lengths. -/
structure Node.WellTyped (nodes : List Node) (node : Node) : Prop where
  inputs : ∀ input ∈ node.inputs, Selection.HasType nodes input.type input.elements
  shape : node.checkShape = .ok ()

/-- Standard nodes, each well typed behind the ones before it. -/
inductive TypedSequence : List Node → Prop where
  | nil : TypedSequence []
  | concat {nodes : List Node} {node : Node} : TypedSequence nodes → node.WellTyped nodes →
      node.isStandard = true → TypedSequence (nodes ++ [node])

namespace Element

theorem HasType.append {nodes : List Node} {type : ElementType} {element : Element}
    (h : element.HasType nodes type) (more : List Node) :
    element.HasType (nodes ++ more) type := by
  obtain ⟨node, port, hNode, hPort, hIndex, hType⟩ := h
  have hBound : element.output.node < nodes.length := (List.getElem?_eq_some_iff.mp hNode).1
  refine ⟨node, port, ?_, hPort, hIndex, hType⟩
  rw [List.getElem?_append_left hBound]
  exact hNode

end Element

namespace Selection

theorem hasType_append_iff {nodes : List Node} {type : ElementType}
    {selection later : Selection} :
    HasType nodes type (selection ++ later) ↔
      HasType nodes type selection ∧ HasType nodes type later := by
  simp only [HasType, List.mem_append, or_imp, forall_and]

theorem HasType.append {nodes : List Node} {type : ElementType} {selection : Selection}
    (h : HasType nodes type selection) (more : List Node) :
    HasType (nodes ++ more) type selection :=
  fun element hElement => (h element hElement).append more

/-- Selections of one type stay of that type in a row. -/
theorem hasType_flatten {nodes : List Node} {type : ElementType} {parts : List Selection}
    (h : ∀ part ∈ parts, HasType nodes type part) : HasType nodes type parts.flatten := by
  intro element hElement
  obtain ⟨part, hPart, hMem⟩ := List.mem_flatten.mp hElement
  exact h part hPart element hMem

/-- Selections of one element each have as many elements as there are selections. -/
theorem length_flatten_of_singles {parts : List Selection}
    (h : ∀ part ∈ parts, part.length = 1) : parts.flatten.length = parts.length := by
  induction parts with
  | nil => rfl
  | cons part later ih =>
      rw [List.flatten_cons, List.length_append, List.length_cons, h part (by simp),
        ih fun other hOther => h other (by simp [hOther])]
      omega

/-- All elements of a declared port have the type of the port. -/
theorem hasType_ofOutput {nodes : List Node} {output : OutputRef} {node : Node}
    {port : OutputPort} (hNode : nodes[output.node]? = some node)
    (hPort : node.outputs[output.port]? = some port) :
    HasType nodes port.type (ofOutput output port.size) := by
  intro element hElement
  obtain ⟨hOutput, hIndex⟩ := mem_ofOutput_iff.mp hElement
  subst hOutput
  exact ⟨node, port, hNode, hPort, hIndex, rfl⟩

end Selection

/-- A well-typed forest node reads enough features. -/
theorem Node.WellTyped.forest_wide {nodes : List Node} {input : Selection} {ensemble : Forest}
    (h : (Node.forest input ensemble).WellTyped nodes) :
    ensemble.requiredDimension ≤ input.length := by
  have hShape := h.shape
  simp only [Node.checkShape] at hShape
  split at hShape
  · assumption
  · cases hShape

namespace TypedSequence

theorem concat_iff {nodes : List Node} {node : Node} :
    TypedSequence (nodes ++ [node]) ↔
      TypedSequence nodes ∧ node.WellTyped nodes ∧ node.isStandard = true := by
  constructor
  · intro h
    generalize hNodes : nodes ++ [node] = all at h
    cases h with
    | nil => simp at hNodes
    | concat hTyped hNode hStandard =>
        obtain ⟨rfl, hLast⟩ := List.append_inj' hNodes rfl
        cases hLast
        exact ⟨hTyped, hNode, hStandard⟩
  · rintro ⟨hTyped, hNode, hStandard⟩
    exact .concat hTyped hNode hStandard

/-- The nodes at the start of a typed sequence are typed themselves. -/
theorem of_append {nodes more : List Node} (h : TypedSequence (nodes ++ more)) :
    TypedSequence nodes := by
  induction more using List.reverseRecOn with
  | nil => simpa using h
  | append_singleton more node ih =>
      rw [← List.append_assoc] at h
      exact ih (concat_iff.mp h).1

/-- A node of a typed sequence is well typed behind the nodes before it. -/
theorem node_of_append_cons {nodes later : List Node} {node : Node}
    (h : TypedSequence (nodes ++ node :: later)) :
    node.WellTyped nodes ∧ node.isStandard = true := by
  rw [List.append_cons] at h
  exact (concat_iff.mp h.of_append).2

theorem isStandard_of_mem {nodes : List Node} {node : Node} (h : TypedSequence nodes)
    (hNode : node ∈ nodes) : node.isStandard = true := by
  obtain ⟨before, later, rfl⟩ := List.append_of_mem hNode
  exact h.node_of_append_cons.2

end TypedSequence

namespace Graph

/-- An element may be read through a port of its own type. -/
theorem checkElement_eq_ok_iff {graph : Graph} {reader : Node} {input : InputPort}
    {element : Element} :
    graph.checkElement reader input element = .ok () ↔
      element.HasType graph.nodes.toList input.type := by
  unfold checkElement Element.HasType
  simp only [except_bind_eq_ok_iff, node_eq_ok_iff, ← Array.getElem?_toList]
  refine exists_congr fun node => ?_
  cases hPort : node.outputs[element.output.port]? with
  | none => simp
  | some port =>
      by_cases hSize : port.size ≤ element.index
      · have hOut : ¬ element.index < port.size := by omega
        simp [hSize, hOut]
      · have hIn : element.index < port.size := by omega
        by_cases hType : port.type = input.type
        · simp [hSize, hIn, hType]
        · simp [hSize, hType]

/-- A loop of checks passes when every check does. -/
theorem forM_eq_ok_iff {α : Type} {check : α → Except Error Unit} {entries : List α} :
    entries.forM check = .ok () ↔ ∀ entry ∈ entries, check entry = .ok () := by
  induction entries with
  | nil => simp [List.forM]
  | cons entry later ih =>
      change check entry >>= (fun _ => later.forM check) = .ok () ↔ _
      rw [except_bind_eq_ok_iff, List.forall_mem_cons, ← ih]
      exact ⟨fun ⟨_, hEntry, hLater⟩ => ⟨hEntry, hLater⟩, fun h => ⟨(), h⟩⟩

/-- A graph accepts exactly the nodes that are well typed behind its own. -/
theorem check_eq_ok_iff {graph : Graph} {node : Node} :
    graph.check node = .ok () ↔ node.WellTyped graph.nodes.toList := by
  unfold check
  rw [except_bind_eq_ok_iff]
  constructor
  · rintro ⟨_, hInputs, hShape⟩
    refine ⟨fun input hInput element hElement => ?_, hShape⟩
    have hElements := forM_eq_ok_iff.mp hInputs input hInput
    exact checkElement_eq_ok_iff.mp (forM_eq_ok_iff.mp hElements element hElement)
  · rintro ⟨hInputs, hShape⟩
    refine ⟨(), forM_eq_ok_iff.mpr fun input hInput => ?_, hShape⟩
    refine forM_eq_ok_iff.mpr fun element hElement => ?_
    exact checkElement_eq_ok_iff.mpr (hInputs input hInput element hElement)

/-- A well-typed node is appended. -/
theorem add_of_wellTyped {graph : Graph} {node : Node}
    (h : node.WellTyped graph.nodes.toList) :
    graph.add node = .ok ({ graph with nodes := graph.nodes.push node }, graph.size) :=
  add_eq_ok_iff.mpr ⟨check_eq_ok_iff.mpr h, rfl⟩

/-- All elements of a declared port are given out. -/
theorem elements_of_port {graph : Graph} {output : OutputRef} {node : Node}
    {port : OutputPort} (hNode : graph.nodes[output.node]? = some node)
    (hPort : node.outputs[output.port]? = some port) :
    graph.elements output = .ok (Selection.ofOutput output port.size) := by
  unfold elements
  rw [port_eq_ok_iff.mpr ⟨node, hNode, hPort⟩]
  rfl

end Graph

end ForestGraph
