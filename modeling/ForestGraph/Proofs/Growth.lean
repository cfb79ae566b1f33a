import ForestGraph.Expansion.Emission
import ForestGraph.Proofs.Succession

/-!
# Growth of a graph under construction

Emitting operations lets a graph grow: what it computed before it still
computes, and the operations themselves never fail.  So it is enough to know
what the emitted elements are read as.  There is one lemma of that form for every
kind of operation that the expansion of a forest emits.
-/

namespace ForestGraph

/-- A sequence of nodes with operations behind it. -/
structure Extends (nodes later : List Node) : Prop where
  operations : ∃ more, later = nodes ++ more ∧ ∀ node ∈ more, node.isOperation = true
  typed : TypedSequence nodes → TypedSequence later

/-- A selection is read as a list of values in the evaluation of typed nodes. -/
def Reads (nodes : List Node) (vector : List Float) (selection : Selection)
    (values : List Value) : Prop :=
  TypedSequence nodes ∧ ∃ known, evaluateNodes vector nodes = .ok known ∧
    known.read selection = .ok values

/-- Typed nodes can be evaluated for an input vector. -/
def Evaluates (nodes : List Node) (vector : List Float) : Prop :=
  TypedSequence nodes ∧ ∃ known, evaluateNodes vector nodes = .ok known

/-- The nodes at the start are evaluated along with all others. -/
theorem Evaluates.of_append {nodes more : List Node} {vector : List Float}
    (h : Evaluates (nodes ++ more) vector) : Evaluates nodes vector := by
  obtain ⟨hTyped, later, hLater⟩ := h
  rw [evaluateNodes_append, except_bind_eq_ok_iff] at hLater
  obtain ⟨known, hKnown, _⟩ := hLater
  exact ⟨hTyped.of_append, known, hKnown⟩

namespace Extends

variable {nodes middle later : List Node}

theorem refl (nodes : List Node) : Extends nodes nodes :=
  ⟨⟨[], by simp⟩, id⟩

theorem trans (h : Extends nodes middle) (hLater : Extends middle later) :
    Extends nodes later := by
  obtain ⟨more, rfl, hMore⟩ := h.operations
  obtain ⟨last, rfl, hLast⟩ := hLater.operations
  refine ⟨⟨more ++ last, by simp, fun node hNode => ?_⟩,
    fun hTyped => hLater.typed (h.typed hTyped)⟩
  rcases List.mem_append.mp hNode with hNode | hNode
  · exact hMore node hNode
  · exact hLast node hNode

/-- A well-typed operation may follow. -/
theorem concat {node : Node} (hTyped : node.WellTyped nodes)
    (hOperation : node.isOperation = true) : Extends nodes (nodes ++ [node]) := by
  refine ⟨⟨[node], rfl, by simpa using hOperation⟩, fun h => .concat h hTyped ?_⟩
  cases node <;> first | rfl | cases hOperation

theorem hasType (h : Extends nodes later) {type : ElementType} {selection : Selection}
    (hType : Selection.HasType nodes type selection) :
    Selection.HasType later type selection := by
  obtain ⟨more, rfl, _⟩ := h.operations
  exact hType.append more

/-- The evaluation goes on to the operations behind. -/
theorem exists_evaluate (h : Extends nodes later) (hTyped : TypedSequence nodes)
    {vector : List Float} {known : Evaluation} (hKnown : evaluateNodes vector nodes = .ok known) :
    ∃ result, evaluateNodes vector later = .ok result ∧
      known.values.toList <+: result.values.toList := by
  have hLater := h.typed hTyped
  obtain ⟨more, rfl, hMore⟩ := h.operations
  exact hLater.exists_evaluate_append hMore hKnown

theorem evaluates (h : Extends nodes later) {vector : List Float}
    (hNodes : Evaluates nodes vector) : Evaluates later vector := by
  obtain ⟨hTyped, known, hKnown⟩ := hNodes
  obtain ⟨result, hResult, _⟩ := h.exists_evaluate hTyped hKnown
  exact ⟨h.typed hTyped, result, hResult⟩

/-- What is read before is read afterwards. -/
theorem reads (h : Extends nodes later) {vector : List Float} {selection : Selection}
    {values : List Value} (hReads : Reads nodes vector selection values) :
    Reads later vector selection values := by
  obtain ⟨hTyped, known, hKnown, hRead⟩ := hReads
  obtain ⟨result, hResult, hPrefix⟩ := h.exists_evaluate hTyped hKnown
  exact ⟨h.typed hTyped, result, hResult, Evaluation.read_of_isPrefix hPrefix hRead⟩

end Extends

namespace Reads

variable {nodes : List Node} {vector : List Float} {selection later : Selection}
  {values more : List Value}

theorem evaluates (h : Reads nodes vector selection values) : Evaluates nodes vector := by
  obtain ⟨hTyped, known, hKnown, _⟩ := h
  exact ⟨hTyped, known, hKnown⟩

/-- What is read is also read when more nodes can be evaluated. -/
theorem append_nodes {added : List Node} (h : Reads nodes vector selection values)
    (hAll : Evaluates (nodes ++ added) vector) :
    Reads (nodes ++ added) vector selection values := by
  obtain ⟨_, known, hKnown, hRead⟩ := h
  obtain ⟨hTyped, later, hLater⟩ := hAll
  refine ⟨hTyped, later, hLater, ?_⟩
  rw [evaluateNodes_append, hKnown] at hLater
  exact Evaluation.read_of_isPrefix (isPrefix_of_foldlM hLater) hRead

/-- All selections are read in the same evaluation. -/
theorem read (h : Reads nodes vector selection values) {known : Evaluation}
    (hKnown : evaluateNodes vector nodes = .ok known) : known.read selection = .ok values := by
  obtain ⟨_, result, hResult, hRead⟩ := h
  rw [hKnown] at hResult
  cases hResult
  exact hRead

theorem append (h : Reads nodes vector selection values)
    (hMore : Reads nodes vector later more) :
    Reads nodes vector (selection ++ later) (values ++ more) := by
  obtain ⟨hTyped, known, hKnown, hRead⟩ := h
  exact ⟨hTyped, known, hKnown, Evaluation.read_append_of_ok hRead (hMore.read hKnown)⟩

theorem length_eq (h : Reads nodes vector selection values) :
    values.length = selection.length := by
  obtain ⟨_, known, _, hRead⟩ := h
  exact Evaluation.length_of_read hRead

/-- The leading elements are read as the leading values. -/
theorem take (h : Reads nodes vector selection values) (count : Nat) :
    Reads nodes vector (selection.take count) (values.take count) := by
  obtain ⟨hTyped, known, hKnown, hRead⟩ := h
  exact ⟨hTyped, known, hKnown, Evaluation.read_take hRead count⟩

/-- One element is read as the value at its position. -/
theorem element (h : Reads nodes vector selection values) {position : Nat} {element : Element}
    (hElement : selection[position]? = some element) :
    ∃ value, values[position]? = some value ∧ Reads nodes vector [element] [value] := by
  obtain ⟨hTyped, known, hKnown, hRead⟩ := h
  obtain ⟨value, hPosition, hValue⟩ := Evaluation.exists_read_element hRead hElement
  exact ⟨value, hPosition, hTyped, known, hKnown, hValue⟩

/-- The ports of the last node are read as what it computes. -/
theorem last {node : Node} {known : Evaluation} {ports : List (List Value)} {port : Nat}
    (hTyped : TypedSequence (nodes ++ [node])) (hKnown : evaluateNodes vector nodes = .ok known)
    (hPorts : node.compute vector known = .ok ports) (hValues : ports[port]? = some values) :
    Reads (nodes ++ [node]) vector (Selection.ofOutput ⟨nodes.length, port⟩ values.length)
      values := by
  obtain ⟨hBefore, hNode, hStandard⟩ := TypedSequence.concat_iff.mp hTyped
  have hFits := hBefore.fits hKnown
  have hFit := hNode.portsFit hStandard hFits hPorts
  have hIndex : known.values.toList.length = nodes.length := hFits.length_eq
  refine ⟨hTyped, known.push ports, ?_, Evaluation.read_ofOutput ?_ hValues⟩
  · rw [evaluateNodes_concat, hKnown]
    exact Graph.computeNode_eq_ok_iff.mpr ⟨ports, hPorts, hFit.map_length, rfl⟩
  · rw [Evaluation.toList_push, ← hIndex]
    simp

/-- What is read behind one more node is read before it or is computed by it. -/
theorem of_concat {node : Node} {element : Element} {value : Value}
    (h : Reads (nodes ++ [node]) vector [element] [value]) :
    element.output.node < nodes.length ∧ Reads nodes vector [element] [value] ∨
      element.output.node = nodes.length ∧ ∃ known ports values,
        evaluateNodes vector nodes = .ok known ∧ node.compute vector known = .ok ports ∧
        ports[element.output.port]? = some values ∧ values[element.index]? = some value := by
  obtain ⟨hTyped, result, hResult, hRead⟩ := h
  rw [evaluateNodes_concat, except_bind_eq_ok_iff] at hResult
  obtain ⟨known, hKnown, hLast⟩ := hResult
  obtain ⟨ports, hPorts, _, rfl⟩ := Graph.computeNode_eq_ok_iff.mp hLast
  have hBefore := hTyped.of_append
  -- The element is one of the last node exactly if its index is the number of those before.
  have hIndex : known.values.toList.length = nodes.length := (hBefore.fits hKnown).length_eq
  rw [Evaluation.read_eq_ok_iff] at hRead
  cases hRead with
  | cons hValue _ =>
      rw [Evaluation.value?_eq_toList, Evaluation.toList_push] at hValue
      by_cases hNode : element.output.node < nodes.length
      · rw [List.getElem?_append_left (by omega), ← Evaluation.value?_eq_toList] at hValue
        exact .inl
          ⟨hNode, hBefore, known, hKnown, Evaluation.read_eq_ok_iff.mpr (.cons hValue .nil)⟩
      · obtain ⟨found, hFound, hRest⟩ := Option.bind_eq_some_iff.mp hValue
        rw [List.getElem?_append_right (by omega), List.getElem?_singleton] at hFound
        obtain ⟨hAt, hSame⟩ := Option.ite_none_right_eq_some.mp hFound
        cases hSame
        obtain ⟨values, hValues, hElement⟩ := Option.bind_eq_some_iff.mp hRest
        exact .inr ⟨by omega, known, _, values, hKnown, hPorts, hValues, hElement⟩

/-- Selections that are read as one value each are read in a row. -/
theorem flatten {α β : Type} (tag : β → Value) {valued : α → β → Prop} {keys : List α}
    {parts : List Selection} (hNodes : Evaluates nodes vector)
    (h : List.Forall₂ (fun key part => ∃ value, valued key value ∧
      Reads nodes vector part [tag value]) keys parts) :
    ∃ values, List.Forall₂ valued keys values ∧
      Reads nodes vector parts.flatten (values.map tag) := by
  induction h with
  | nil =>
      obtain ⟨hTyped, known, hKnown⟩ := hNodes
      exact ⟨[], .nil, hTyped, known, hKnown, rfl⟩
  | cons hFirst _ ih =>
      obtain ⟨value, hValue, hRead⟩ := hFirst
      obtain ⟨values, hValues, hReads⟩ := ih
      exact ⟨value :: values, .cons hValue hValues, hRead.append hReads⟩

end Reads

namespace Rebuild

/-- A rebuild with operations added to its graph and nothing else changed. -/
structure Grows (before after : Rebuild) : Prop where
  options : after.options = before.options
  links : after.links = before.links
  outputs : after.graph.outputs = before.graph.outputs
  nodes : Extends before.emitted after.emitted

namespace Grows

theorem refl (state : Rebuild) : Grows state state :=
  ⟨rfl, rfl, rfl, .refl _⟩

theorem trans {before middle after : Rebuild} (h : Grows before middle)
    (hAfter : Grows middle after) : Grows before after :=
  ⟨hAfter.options.trans h.options, hAfter.links.trans h.links, hAfter.outputs.trans h.outputs,
    h.nodes.trans hAfter.nodes⟩

end Grows

/-- The graph grew, and a selection of new elements of a type came out. -/
structure Emits (before after : Rebuild) (type : ElementType) (size : Nat)
    (selection : Selection) : Prop where
  grows : Grows before after
  hasType : Selection.HasType after.emitted type selection
  length : selection.length = size

variable {before after : Rebuild} {result : Selection}

/-- A step in front of an emitting step. -/
theorem Emits.before_grows {middle : Rebuild} {type : ElementType} {size : Nat}
    (hGrows : Grows before middle) (h : Emits middle after type size result) :
    Emits before after type size result :=
  ⟨hGrows.trans h.grows, h.hasType, h.length⟩

/-! ## One operation -/

/-- A node with one port is emitted exactly when it is well typed. -/
theorem succeeds_emit_iff {node : Node} {port : OutputPort} (hPort : node.outputs = [port]) :
    Succeeds (emit node) before result after ↔
      node.WellTyped before.emitted ∧
        result = Selection.ofOutput ⟨before.emitted.length, 0⟩ port.size ∧
        after = { before with graph :=
          { before.graph with nodes := before.graph.nodes.push node } } := by
  have hElements : Succeeds (elements ⟨before.emitted.length, 0⟩)
      { before with graph := { before.graph with nodes := before.graph.nodes.push node } }
      (Selection.ofOutput ⟨before.emitted.length, 0⟩ port.size)
      { before with graph := { before.graph with nodes := before.graph.nodes.push node } } := by
    have hNode : emitted { before with graph :=
        { before.graph with nodes := before.graph.nodes.push node } } =
        before.emitted ++ [node] := by simp [emitted]
    refine succeeds_elements (?_ : _ = some node) ?_
    · rw [hNode]
      simp
    · simp [hPort]
  unfold emit
  rw [succeeds_bind_iff]
  constructor
  · rintro ⟨index, middle, hAdd, hRest⟩
    obtain ⟨hTyped, rfl, rfl⟩ := succeeds_add_iff.mp hAdd
    obtain ⟨rfl, rfl⟩ := hElements.unique hRest
    exact ⟨hTyped, rfl, rfl⟩
  · rintro ⟨hTyped, rfl, rfl⟩
    exact ⟨_, _, succeeds_add_iff.mpr ⟨hTyped, rfl, rfl⟩, hElements⟩

/-- A well-typed node with one port can be emitted. -/
theorem exists_emit {node : Node} {port : OutputPort} (hPort : node.outputs = [port])
    (hTyped : node.WellTyped before.emitted) :
    ∃ result after, Succeeds (emit node) before result after :=
  ⟨_, _, (succeeds_emit_iff hPort).mpr ⟨hTyped, rfl, rfl⟩⟩

/-- Emitting an operation lets the graph grow by its elements. -/
theorem emits_of_emit {node : Node} {port : OutputPort} (hPort : node.outputs = [port])
    (hOperation : node.isOperation = true) (h : Succeeds (emit node) before result after) :
    Emits before after port.type port.size result := by
  obtain ⟨hTyped, rfl, rfl⟩ := (succeeds_emit_iff hPort).mp h
  refine ⟨⟨rfl, rfl, rfl, ?_⟩, ?_, by simp⟩
  · have hNodes := Extends.concat hTyped hOperation
    simpa [emitted] using hNodes
  · refine Selection.hasType_ofOutput (?_ : _ = some node) ?_
    · simp [emitted]
    · simp [hPort]

/-- The emitted elements are read as what the operation computes. -/
theorem reads_of_emit {node : Node} {port : OutputPort} (hPort : node.outputs = [port])
    (hOperation : node.isOperation = true) (h : Succeeds (emit node) before result after)
    (hBefore : TypedSequence before.emitted) {vector : List Float} {known : Evaluation}
    (hKnown : evaluateNodes vector before.emitted = .ok known) {values : List Value}
    (hCompute : node.compute vector known = .ok [values]) :
    Reads after.emitted vector result values := by
  have hGrows := (emits_of_emit hPort hOperation h).grows
  obtain ⟨hTyped, rfl, rfl⟩ := (succeeds_emit_iff hPort).mp h
  have hAfter := hGrows.nodes.typed hBefore
  have hNodes : emitted { before with graph :=
      { before.graph with nodes := before.graph.nodes.push node } } =
      before.emitted ++ [node] := by simp [emitted]
  rw [hNodes] at hAfter ⊢
  have hPosition : [values][0]? = some values := rfl
  have hReads := Reads.last hAfter hKnown hCompute hPosition
  -- What the operation computes has the size of its port.
  obtain ⟨ports, hPorts, hFit⟩ := hTyped.exists_compute hOperation (hBefore.fits hKnown) vector
  rw [hCompute] at hPorts
  cases hPorts
  rw [hPort] at hFit
  rwa [(portsFit_singleton_iff.mp hFit).1] at hReads

end Rebuild

end ForestGraph
