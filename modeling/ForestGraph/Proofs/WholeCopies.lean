import ForestGraph.Proofs.Preservation

/-!
# Copies of whole graphs

A pass that copies every node makes the graph again.  The invariant is that the nodes
that are done stand in the new graph at the indices they had, and that every element
they declare is linked to itself; so the next node is pointed at the elements that it
reads already.  Nothing is asked of the forests, which are copied like other nodes.
-/

namespace ForestGraph

open Rebuild

/-! ## The invariant -/

/-- A node whose selections are all replaced by themselves is the same node. -/
theorem Node.mapInputs_eq_self {node : Node} {replace : Selection → Selection}
    (h : ∀ input ∈ node.inputs, replace input.elements = input.elements) :
    node.mapInputs replace = node := by
  cases node with
  | input _ | constant _ | liar _ _ _ => rfl
  | sum elements | not elements | forest elements _ | peel _ elements =>
      simp only [inputs, List.forall_mem_cons] at h
      simp only [mapInputs, mapInputsM, h.1]
      rfl
  | multiplexer first second | dotProduct first second | compare _ first second =>
      simp only [inputs, List.forall_mem_cons] at h
      obtain ⟨hFirst, hSecond, _⟩ := h
      simp only [mapInputs, mapInputsM, hFirst, hSecond]
      rfl
  | select input0 input1 selector =>
      simp only [inputs, List.forall_mem_cons] at h
      obtain ⟨hFirst, hSecond, hSelector, _⟩ := h
      simp only [mapInputs, mapInputsM, hFirst, hSecond, hSelector]
      rfl

/-- Some nodes have been copied to the indices they had, and every element that they
declare is linked to itself. -/
structure Identical (options : RebuildOptions) (nodes : List Node) (state : Rebuild) : Prop where
  options : state.options = options
  outputs : state.graph.outputs = []
  emitted : state.emitted = nodes
  linked : ∀ {type : ElementType} {element : Element}, element.HasType nodes type →
    LinkedTo state.links element element

namespace Identical

variable {options : RebuildOptions} {nodes later : List Node} {node : Node} {before : Rebuild}

/-- Nothing is copied at the start. -/
theorem start (options : RebuildOptions) : Identical options [] (start options) := by
  refine ⟨rfl, rfl, rfl, fun {type element} hType => ?_⟩
  obtain ⟨_, _, hNode, _⟩ := hType
  cases hNode

/-- Declared selections are followed to themselves. -/
theorem follows (h : Identical options nodes before) {selection : Selection}
    (hDeclared : selection.Declared nodes) :
    Follows before.links selection selection ∧ followed before.links selection = selection := by
  have hFollows : Follows before.links selection selection := by
    refine List.forall₂_same.mpr fun element hElement => ?_
    obtain ⟨type, hType⟩ := hDeclared element hElement
    exact h.linked hType
  exact ⟨hFollows, hFollows.followed⟩

/-- The next node is copied as it is. -/
theorem exists_copyNode (h : Identical options nodes before) (hTyped : node.WellTyped nodes) :
    ∃ after, Succeeds (copyNode nodes.length node) before () after ∧
      Identical options (nodes ++ [node]) after := by
  have hFollows : ∀ input ∈ node.inputs, Follows before.links input.elements input.elements ∧
      followed before.links input.elements = input.elements := by
    intro input hInput
    exact h.follows fun element hElement =>
      ⟨input.type, hTyped.inputs input hInput element hElement⟩
  have hSame := Node.mapInputs_eq_self fun input hInput => (hFollows input hInput).2
  obtain ⟨after, hCopy, _, hCopied⟩ := @Rebuild.exists_copyNode before nodes node nodes.length
    hTyped fun input hInput => by
      rw [(hFollows input hInput).2, h.emitted]
      exact ⟨(hFollows input hInput).1, hTyped.inputs input hInput⟩
  rw [hSame] at hCopied
  refine ⟨after, hCopy, hCopied.options.trans h.options, hCopied.outputs.trans h.outputs, ?_,
    fun {type element} hType => ?_⟩
  · rw [hCopied.emitted, h.emitted]
  · rcases Element.hasType_concat hType with hBefore | ⟨hLast, port, hPort, hIndex, _⟩
    -- Links from the nodes before stay, and the new ones lead to the index of the node.
    · obtain ⟨selection, hSelection, hElement⟩ := h.linked hBefore
      obtain ⟨_, _, hNode, _⟩ := hBefore
      have hOther := Nat.ne_of_lt (List.getElem?_eq_some_iff.mp hNode).1
      exact ⟨selection, (hCopied.links.kept hOther).trans hSelection, hElement⟩
    · have hLink := hCopied.links.linked hPort
      rw [h.emitted, ← hLast] at hLink
      refine ⟨_, hLink, ?_⟩
      simp [Selection.ofOutput, hIndex]

/-- Nodes are copied one after the other by steps that only copy. -/
theorem exists_rebuildNodes {step : Nat → Node → RebuildM Bool}
    (hStep : ∀ index, ∀ node ∈ later, step index node = do copyNode index node; return false)
    (h : Identical options nodes before) (hTyped : TypedSequence (nodes ++ later)) :
    ∃ after, Succeeds (rebuildNodes step nodes.length later) before false after ∧
      Identical options (nodes ++ later) after := by
  induction later generalizing nodes before with
  | nil => exact ⟨before, succeeds_pure_iff.mpr ⟨rfl, rfl⟩, by simpa using h⟩
  | cons node later ih =>
      obtain ⟨middle, hCopy, hMiddle⟩ := h.exists_copyNode hTyped.node_of_append_cons.1
      rw [List.append_cons] at hTyped ⊢
      obtain ⟨after, hLater, hAfter⟩ :=
        ih (fun index other hOther => hStep index other (by simp [hOther])) hMiddle hTyped
      rw [List.length_append] at hLater
      have hFirst : Succeeds (step nodes.length node) before false middle := by
        rw [hStep _ node (by simp)]
        exact hCopy.bind (succeeds_pure_iff.mpr ⟨rfl, rfl⟩)
      exact ⟨after, hFirst.bind (hLater.bind (succeeds_pure_iff.mpr ⟨rfl, rfl⟩)), hAfter⟩

end Identical

/-! ## Whole graphs -/

namespace Graph.Sound

variable {graph : Graph}

/-- A pass that only copies hands out the same graph, and says that it only copied. -/
theorem succeeds_pass_of_copies (h : graph.Sound) {step : Nat → Node → RebuildM Bool}
    (hStep : ∀ index, ∀ node ∈ graph.nodes.toList,
      step index node = do copyNode index node; return false) (before : Rebuild) :
    Succeeds (pass step graph) before (graph, false) (start before.options) := by
  obtain ⟨state, hNodes, hState⟩ :=
    (Identical.start before.options).exists_rebuildNodes hStep h.typed
  have hFollows : ∀ entry ∈ graph.outputs, Follows state.links entry.2 entry.2 ∧
      followed state.links entry.2 = entry.2 :=
    fun entry hEntry => hState.follows (h.declared entry hEntry)
  have hPass := succeeds_pass_of_steps hNodes hState.options hState.outputs (fun entry hEntry => by
    rw [(hFollows entry hEntry).2, hState.emitted]
    exact ⟨(hFollows entry hEntry).1, h.declared entry hEntry⟩) h.ordered
  have hGraph : (⟨state.graph.nodes, graph.outputs.follow state.links⟩ : Graph) = graph := by
    have hNodes : state.graph.nodes = graph.nodes := Array.toList_inj.mp hState.emitted
    have hOutputs : graph.outputs.follow state.links = graph.outputs := by
      unfold NamedSelections.follow
      rw [List.map_congr_left fun entry hEntry => by rw [(hFollows entry hEntry).2]]
      simp
    rw [hNodes, hOutputs]
  rwa [hGraph] at hPass

/-- A sound graph is copied to itself. -/
theorem succeeds_copy (h : graph.Sound) (before : Rebuild) :
    Succeeds (Rebuild.copy graph) before graph (start before.options) :=
  (h.succeeds_pass_of_copies (fun _ _ _ => rfl) before).bind (succeeds_pure_iff.mpr ⟨rfl, rfl⟩)

/-- An expanding pass over a graph without forests only copies. -/
theorem succeeds_pass_of_elementary (h : graph.Sound)
    (hElementary : ∀ node ∈ graph.nodes.toList, node.isForest = false) (before : Rebuild) :
    Succeeds (pass expandNode graph) before (graph, false) (start before.options) :=
  h.succeeds_pass_of_copies (fun index node hNode => expandNode_of_elementary index
    (h.typed.isStandard_of_mem hNode) (hElementary node hNode)) before

end Graph.Sound

/-- Whatever was rebuilt before, and however that ended, a built graph is copied to itself:
the same nodes with the same parameters read the same elements, and the outputs are the
same. -/
theorem Graph.Built.copy_eq_self {graph : Graph} (hGraph : graph.Built) (state : Rebuild) :
    Succeeds (Rebuild.copy graph) state graph (start state.options) :=
  hGraph.sound.succeeds_copy state

/-- Stacked forests are copied behind a rebuild that has failed. -/
theorem Graph.Built.copy_eq_self_stackedForests :
    Graph.stackedForests.Built ∧
      Succeeds (Rebuild.copy Graph.stackedForests) Rebuild.interrupted Graph.stackedForests
        (start Rebuild.interrupted.options) :=
  ⟨built_stackedForests, Graph.Built.copy_eq_self built_stackedForests Rebuild.interrupted⟩

end ForestGraph
