import ForestGraph.Expansion.Pass
import ForestGraph.Proofs.BuiltGraphs
import ForestGraph.Proofs.Copying
import ForestGraph.Proofs.ForestExpansion

/-!
# Rebuilding simulates

While a graph is expanded, the nodes that are done are simulated by those of the
new graph: every element they declare is linked to a new element of its type, and
the two hold the same value, unless the value depends on the edge indicator of a
forest whose input does not enter every node over its last edge.  `Replaces` says
once what one step can do, and the invariants are kept by each of its two cases.
-/

namespace ForestGraph

open Rebuild

/-! ## One step -/

/-- The rebuild of one node behind some others, which is a copy or an expansion. -/
inductive Replaces (nodes : List Node) : Node → Rebuild → Rebuild → Prop where
  | copied {node : Node} {before after : Rebuild} : node.isForest = false →
      (node.mapInputs (followed before.links)).WellTyped before.emitted →
      (∀ input ∈ node.inputs,
        Follows before.links input.elements (followed before.links input.elements)) →
      Copied nodes.length node (node.mapInputs (followed before.links)) before after →
      Replaces nodes node before after
  | expanded {input features output trees edges : Selection} {ensemble : Forest}
      {before after : Rebuild} :
      (before.options.checkForests = true → ensemble.validate = .ok ()) →
      ensemble.Expandable ∧ ensemble.ReadsBelow input.length →
      Follows before.links input features →
      ensemble.Expanded nodes.length features before after output trees edges →
      Replaces nodes (.forest input ensemble) before after

/-- A node that can be rebuilt: if it is a forest, it passes the check that the
options ask for, it is expandable, and its input has every feature that it reads. -/
def Node.Acceptable (options : RebuildOptions) (node : Node) : Prop :=
  ∀ input ensemble, node = .forest input ensemble →
    (options.checkForests = true → ensemble.validate = .ok ()) ∧
      ensemble.Expandable ∧ ensemble.ReadsBelow input.length

/-- If the node is a forest, its input reaches every node over its last edge. -/
def Node.EntersLast (known : Evaluation) (node : Node) : Prop :=
  ∀ input ensemble numbers, node = .forest input ensemble →
    known.readReals input = .ok numbers → ensemble.EntersLast numbers

namespace Replaces

variable {nodes : List Node} {node : Node} {before after : Rebuild}

theorem options (h : Replaces nodes node before after) : after.options = before.options := by
  cases h with
  | copied _ _ _ hCopied => exact hCopied.options
  | expanded _ _ _ hExpanded => exact hExpanded.options

theorem outputs (h : Replaces nodes node before after) :
    after.graph.outputs = before.graph.outputs := by
  cases h with
  | copied _ _ _ hCopied => exact hCopied.outputs
  | expanded _ _ _ hExpanded => exact hExpanded.outputs

theorem acceptable (h : Replaces nodes node before after) : node.Acceptable before.options := by
  rintro input ensemble rfl
  cases h with
  | copied hForest => cases hForest
  | expanded hChecked hForest => exact ⟨hChecked, hForest⟩

/-- New nodes are added behind those before; they are no forests, and there is an input
among them exactly when an input is copied. -/
theorem emitted (h : Replaces nodes node before after) :
    ∃ more, after.emitted = before.emitted ++ more ∧ (∀ new ∈ more, new.isForest = false) ∧
      ∀ size, Node.input size ∈ more ↔ node = .input size := by
  cases h with
  | copied hForest _ _ hCopied =>
      refine ⟨_, hCopied.emitted, ?_, fun size => ?_⟩
      · simpa using hForest
      · rw [List.mem_singleton, eq_comm, Node.mapInputs_eq_input_iff]
  | expanded _ _ _ hExpanded =>
      obtain ⟨more, hMore, hOperations⟩ := hExpanded.nodes.operations
      refine ⟨more, hMore, fun new hNew => ?_,
        fun size => ⟨fun hMem => ?_, fun hNode => by cases hNode⟩⟩
      · have hOperation := hOperations new hNew
        cases new <;> first | rfl | cases hOperation
      · cases hOperations _ hMem

theorem typed (h : Replaces nodes node before after) (hStandard : node.isStandard = true)
    (hBefore : TypedSequence before.emitted) : TypedSequence after.emitted := by
  cases h with
  | copied _ hTyped _ hCopied =>
      rw [hCopied.emitted]
      exact .concat hBefore hTyped (by simpa using hStandard)
  | expanded _ _ _ hExpanded => exact hExpanded.nodes.typed hBefore

/-- Links from other nodes stay. -/
theorem kept (h : Replaces nodes node before after) {output : OutputRef}
    (hOutput : output.node ≠ nodes.length) : after.links[output]? = before.links[output]? := by
  cases h with
  | copied _ _ _ hCopied => exact hCopied.links.kept hOutput
  | expanded _ _ _ hExpanded =>
      have hNe : ∀ port, (⟨nodes.length, port⟩ : OutputRef) ≠ output :=
        fun port hSame => hOutput (hSame ▸ rfl)
      rw [hExpanded.links]
      simp [Std.HashMap.getElem?_insert, hNe]

/-- The ports of the node are linked to as many elements of the same types. -/
theorem linked (h : Replaces nodes node before after) {port : Nat} {declared : OutputPort}
    (hPort : node.outputs[port]? = some declared) :
    ∃ selection, after.links[(⟨nodes.length, port⟩ : OutputRef)]? = some selection ∧
      selection.length = declared.size ∧
      Selection.HasType after.emitted declared.type selection := by
  cases h with
  | copied _ _ hFollows hCopied =>
      have hOutputs := Node.outputs_mapInputs fun input hInput =>
        (hFollows input hInput).length_eq.symm
      refine ⟨_, hCopied.links.linked hPort, Selection.length_ofOutput .., ?_⟩
      have hNew : after.emitted[before.emitted.length]? =
          some (node.mapInputs (followed before.links)) := by
        rw [hCopied.emitted]
        simp
      exact Selection.hasType_ofOutput hNew (hOutputs ▸ hPort)
  | expanded _ _ _ hExpanded =>
      obtain ⟨hOutput, hTrees, hEdges⟩ := hExpanded.linked
      match port with
      | 0 =>
          cases hPort
          exact ⟨_, hOutput, hExpanded.outputSize, hExpanded.outputType⟩
      | 1 =>
          cases hPort
          exact ⟨_, hTrees, hExpanded.treesSize, hExpanded.treesType⟩
      | 2 =>
          cases hPort
          exact ⟨_, hEdges, hExpanded.edgesSize, hExpanded.edgesType⟩
      | _ + 3 => cases hPort

end Replaces

/-! ## The invariants -/

/-- Every element that some nodes declare is linked to a new element of its type. -/
structure Linked (nodes : List Node) (state : Rebuild) : Prop where
  typed : TypedSequence state.emitted
  elementary : ∀ node ∈ state.emitted, node.isForest = false
  inputs : ∀ size, Node.input size ∈ state.emitted ↔ Node.input size ∈ nodes
  linked : ∀ {type : ElementType} {element : Element}, element.HasType nodes type →
    ∃ new, LinkedTo state.links element new ∧ new.HasType state.emitted type

/-- Ports that are closed under what their nodes read, and whose edge indicators are
of forests that are entered over last edges. -/
def ClosedPorts (nodes : List Node) (known : Evaluation) (ports : OutputRef → Prop) : Prop :=
  ∀ output node, ports output → nodes[output.node]? = some node →
    (∀ input ∈ node.inputs, ∀ element ∈ input.elements, ports element.output) ∧
    (output.port = ForestPort.edgeIndicator.index → node.EntersLast known)

/-- Linked elements of some ports hold the same values for an input vector. -/
def Mirrors (ports : OutputRef → Prop) (vector : List Float) (nodes : List Node)
    (state : Rebuild) : Prop :=
  ∀ old new value, ports old.output → LinkedTo state.links old new →
    Reads nodes vector [old] [value] → Reads state.emitted vector [new] [value]

/-- A declared element of more nodes is declared before, or by the last node. -/
theorem Element.hasType_concat {nodes : List Node} {node : Node} {type : ElementType}
    {element : Element} (h : element.HasType (nodes ++ [node]) type) :
    element.HasType nodes type ∨ element.output.node = nodes.length ∧
      ∃ port, node.outputs[element.output.port]? = some port ∧ element.index < port.size ∧
        port.type = type := by
  obtain ⟨found, port, hFound, hPort, hIndex, hType⟩ := h
  by_cases hNode : element.output.node < nodes.length
  · rw [List.getElem?_append_left hNode] at hFound
    exact .inl ⟨found, port, hFound, hPort, hIndex, hType⟩
  · rw [List.getElem?_append_right (by omega), List.getElem?_singleton] at hFound
    obtain ⟨hAt, hSame⟩ := Option.ite_none_right_eq_some.mp hFound
    cases hSame
    exact .inr ⟨by omega, port, hPort, hIndex, hType⟩

section Invariants

variable {nodes : List Node} {node : Node} {before after : Rebuild} {vector : List Float}
  {ports : OutputRef → Prop}

/-- Nothing is done at the start. -/
theorem linked_start (options : RebuildOptions) : Linked [] (start options) := by
  refine ⟨.nil, fun node hNode => ?_, fun size => Iff.rfl, fun {type element} h => ?_⟩
  · cases hNode
  · obtain ⟨_, _, hNode, _⟩ := h
    cases hNode

theorem mirrors_start (options : RebuildOptions) : Mirrors ports vector [] (start options) := by
  rintro old new value _ ⟨selection, hSelection, _⟩ _
  simp [start] at hSelection

/-- New elements have the types of the old ones that are linked to them. -/
theorem Linked.hasType (h : Linked nodes before) {type : ElementType} {old new : Element}
    (hLink : LinkedTo before.links old new) (hType : old.HasType nodes type) :
    new.HasType before.emitted type := by
  obtain ⟨other, hOther, hNew⟩ := h.linked hType
  obtain rfl := hOther.unique hLink
  exact hNew

/-- Declared selections are linked to declared selections. -/
theorem Linked.follows_declared (h : Linked nodes before) {selection : Selection}
    (hDeclared : selection.Declared nodes) :
    Follows before.links selection (followed before.links selection) ∧
      (followed before.links selection).Declared before.emitted := by
  have hLinked : ∀ element ∈ selection, ∃ new, LinkedTo before.links element new ∧
      ∃ type, new.HasType before.emitted type := by
    intro element hElement
    obtain ⟨type, hType⟩ := hDeclared element hElement
    obtain ⟨new, hLink, hNew⟩ := h.linked hType
    exact ⟨new, hLink, type, hNew⟩
  obtain ⟨new, hNew⟩ := exists_forall₂ hLinked
  have hFollows : Follows before.links selection new := hNew.imp fun _ _ hBoth => hBoth.1
  rw [hFollows.followed]
  refine ⟨hFollows, fun element hElement => ?_⟩
  obtain ⟨position, hPosition⟩ := List.mem_iff_getElem?.mp hElement
  obtain ⟨_, _, _, hType⟩ := forall₂_getElem?_right hNew hPosition
  exact hType

/-- Selections of one type are linked to selections of that type. -/
theorem Linked.follows (h : Linked nodes before) {type : ElementType} {selection : Selection}
    (hType : Selection.HasType nodes type selection) :
    Follows before.links selection (followed before.links selection) ∧
      Selection.HasType before.emitted type (followed before.links selection) := by
  obtain ⟨hFollows, _⟩ := h.follows_declared fun element hElement => ⟨type, hType element hElement⟩
  refine ⟨hFollows, fun element hElement => ?_⟩
  obtain ⟨position, hPosition⟩ := List.mem_iff_getElem?.mp hElement
  obtain ⟨old, hOld, hLink⟩ := forall₂_getElem?_right hFollows hPosition
  exact h.hasType hLink (hType old (List.mem_of_getElem? hOld))

/-- A rebuilt node keeps everything linked. -/
theorem Linked.step (h : Linked nodes before) (hStandard : node.isStandard = true)
    (hNode : Replaces nodes node before after) : Linked (nodes ++ [node]) after := by
  obtain ⟨more, hEmitted, hElementary, hInputs⟩ := hNode.emitted
  refine ⟨hNode.typed hStandard h.typed, fun new hNew => ?_, fun size => ?_,
    fun {type element} hType => ?_⟩
  · rw [hEmitted] at hNew
    rcases List.mem_append.mp hNew with hOld | hMore
    · exact h.elementary new hOld
    · exact hElementary new hMore
  · rw [hEmitted, List.mem_append, List.mem_append, h.inputs, hInputs, List.mem_singleton, eq_comm]
  · rcases Element.hasType_concat hType with hBefore | ⟨hLast, port, hPort, hIndex, rfl⟩
    · obtain ⟨new, ⟨selection, hSelection, hAt⟩, hNew⟩ := h.linked hBefore
      -- The links of the new node do not touch those of the nodes before.
      have hOther : element.output.node ≠ nodes.length := by
        obtain ⟨_, _, hFound, _⟩ := hBefore
        have hBound := (List.getElem?_eq_some_iff.mp hFound).1
        omega
      refine ⟨new, ⟨selection, (hNode.kept hOther).trans hSelection, hAt⟩, ?_⟩
      rw [hEmitted]
      exact hNew.append more
    · obtain ⟨selection, hSelection, hSize, hTypes⟩ := hNode.linked hPort
      -- The element is one of the new node, and its port is linked to enough elements.
      have hBound : element.index < selection.length := by omega
      refine ⟨selection[element.index], ⟨selection, ?_, List.getElem?_eq_getElem hBound⟩,
        hTypes _ (List.getElem_mem hBound)⟩
      rw [← hLast] at hSelection
      exact hSelection

/-- Linked selections are read as the same values. -/
theorem Mirrors.reads (h : Mirrors ports vector nodes before)
    (hNew : Evaluates before.emitted vector) {old new : Selection} {values : List Value}
    (hPorts : ∀ element ∈ old, ports element.output) (hFollows : Follows before.links old new)
    (hOld : Reads nodes vector old values) : Reads before.emitted vector new values := by
  obtain ⟨hTyped, known, hKnown, hRead⟩ := hOld
  obtain ⟨hNewTyped, renamed, hRenamed⟩ := hNew
  rw [Evaluation.read_eq_ok_iff] at hRead
  refine ⟨hNewTyped, renamed, hRenamed, Evaluation.read_eq_ok_iff.mpr ?_⟩
  induction hFollows generalizing values with
  | nil =>
      cases hRead
      exact .nil
  | cons hLinked _ ih =>
      obtain ⟨hPort, hOthers⟩ := List.forall_mem_cons.mp hPorts
      cases hRead with
      | cons hValue hLater =>
          -- Every single element is mirrored, and all are read in the same evaluation.
          have hOne := h _ _ _ hPort hLinked
            ⟨hTyped, known, hKnown, Evaluation.read_eq_ok_iff.mpr (.cons hValue .nil)⟩
          have hNewValue := Evaluation.read_eq_ok_iff.mp (hOne.read hRenamed)
          cases hNewValue with
          | cons hNewFirst _ => exact .cons hNewFirst (ih hOthers hLater)

/-- A copied node computes what the node computes from the values that the copy reads. -/
theorem Rebuild.Copied.reads_of_inputs (hTyped : node.WellTyped nodes)
    (hStandard : node.isStandard = true)
    (hCopied : Copied nodes.length node (node.mapInputs (followed before.links)) before after)
    (hAfter : Evaluates after.emitted vector) {known : Evaluation} (hFits : known.Fits nodes)
    (hInputs : ∀ input ∈ node.inputs, ∃ read, known.read input.elements = .ok read ∧
      Reads before.emitted vector (followed before.links input.elements) read)
    {computed : List (List Value)} (hComputed : node.compute vector known = .ok computed)
    {port : Nat} {values : List Value} (hValues : computed[port]? = some values) :
    ∃ selection, after.links[(⟨nodes.length, port⟩ : OutputRef)]? = some selection ∧
      Reads after.emitted vector selection values := by
  obtain ⟨declared, hDeclared, hSize, _⟩ :=
    forall₂_getElem?_left (hTyped.portsFit hStandard hFits hComputed) hValues
  refine ⟨_, hCopied.links.linked hDeclared, ?_⟩
  rw [hCopied.emitted] at hAfter ⊢
  obtain ⟨renamed, hRenamed⟩ := hAfter.of_append.2
  have hSame : (node.mapInputs (followed before.links)).compute vector renamed = .ok computed := by
    rw [← hComputed]
    refine Node.compute_mapInputs fun input hInput => ?_
    obtain ⟨read, hRead, hReads⟩ := hInputs input hInput
    exact ⟨read, hRead, hReads.read hRenamed⟩
  rw [← hSize]
  exact Reads.last hAfter.1 hRenamed hSame hValues

/-- A copied node computes the same values. -/
theorem Rebuild.Copied.reads (hLinked : Linked nodes before)
    (hTyped : TypedSequence (nodes ++ [node]))
    (hCopied : Copied nodes.length node (node.mapInputs (followed before.links)) before after)
    (hMirrors : Mirrors ports vector nodes before) (hAfter : Evaluates after.emitted vector)
    (hInputs : ∀ input ∈ node.inputs, ∀ element ∈ input.elements, ports element.output)
    {known : Evaluation} (hKnown : evaluateNodes vector nodes = .ok known)
    {computed : List (List Value)} (hComputed : node.compute vector known = .ok computed)
    {port : Nat} {values : List Value} (hValues : computed[port]? = some values) :
    ∃ selection, after.links[(⟨nodes.length, port⟩ : OutputRef)]? = some selection ∧
      Reads after.emitted vector selection values := by
  obtain ⟨hNodes, hNode, hStandard⟩ := TypedSequence.concat_iff.mp hTyped
  have hFits := hNodes.fits hKnown
  have hBefore : Evaluates before.emitted vector := by
    rw [hCopied.emitted] at hAfter
    exact hAfter.of_append
  refine hCopied.reads_of_inputs hNode hStandard hAfter hFits (fun input hInput => ?_) hComputed
    hValues
  have hType := hNode.inputs input hInput
  -- The inputs are mirrored, so the copy reads the values that the node reads.
  obtain ⟨read, hRead, _⟩ := hFits.exists_read hType
  exact ⟨read, hRead, hMirrors.reads hBefore (hInputs input hInput) (hLinked.follows hType).1
    ⟨hNodes, known, hKnown, hRead⟩⟩

/-- An expanded forest computes the same output and tree outputs, and the same edge
indicator exactly if its input reaches every node over its last edge. -/
theorem Forest.Expanded.reads_outcome {ensemble : Forest}
    {input features output trees edges : Selection} (hForest : ensemble.Expandable)
    (hFollows : Follows before.links input features)
    (hExpanded : ensemble.Expanded nodes.length features before after output trees edges)
    (hMirrors : Mirrors ports vector nodes before) (hBefore : Evaluates before.emitted vector)
    (hInput : ∀ element ∈ input, ports element.output) {numbers : List Float}
    (hNumbers : Reads nodes vector input (numbers.map .real))
    {outcome : Outcome} (hOutcome : ensemble.evaluate numbers = .ok outcome) :
    Reads after.emitted vector output [.real outcome.output] ∧
      Reads after.emitted vector trees (outcome.treeOutputs.map .real) ∧
      ∃ flags : List Bool, Reads after.emitted vector edges (flags.map .boolean) ∧
        (flags = outcome.edgeIndicator ↔ ensemble.EntersLast numbers) := by
  obtain ⟨walks, flags, hWalked, hFlags, hOutput, hTrees, hEdges⟩ :=
    hExpanded.reads (hMirrors.reads hBefore hInput hFollows hNumbers)
  obtain ⟨others, hOthers, rfl⟩ := Forest.evaluate_eq_ok_iff.mp hOutcome
  -- The walks that the emitted nodes follow are those of the evaluation.
  obtain rfl := hWalked.unique hOthers
  exact ⟨hOutput, hTrees, flags, hEdges, hFlags.eq_edgeIndicator_iff hForest hWalked⟩

/-- What a node computes is read through the links of its ports. -/
theorem Replaces.reads (hLinked : Linked nodes before) (hTyped : TypedSequence (nodes ++ [node]))
    (hReplaces : Replaces nodes node before after) (hMirrors : Mirrors ports vector nodes before)
    (hAfter : Evaluates after.emitted vector)
    (hInputs : ∀ input ∈ node.inputs, ∀ element ∈ input.elements, ports element.output)
    {known : Evaluation} (hKnown : evaluateNodes vector nodes = .ok known)
    {computed : List (List Value)} (hComputed : node.compute vector known = .ok computed)
    {port : Nat} {values : List Value} (hValues : computed[port]? = some values)
    (hEnters : port = ForestPort.edgeIndicator.index → node.EntersLast known) :
    ∃ selection, after.links[(⟨nodes.length, port⟩ : OutputRef)]? = some selection ∧
      Reads after.emitted vector selection values := by
  obtain ⟨more, hEmitted, _⟩ := hReplaces.emitted
  have hBefore : Evaluates before.emitted vector := by
    rw [hEmitted] at hAfter
    exact hAfter.of_append
  cases hReplaces with
  | copied _ _ _ hCopied =>
      exact hCopied.reads hLinked hTyped hMirrors hAfter hInputs hKnown hComputed hValues
  | @expanded input _ output trees edges ensemble _ _ _ hForest hFollows hExpanded =>
      obtain ⟨numbers, outcome, hNumbers, hOutcome, rfl⟩ :=
        Node.compute_forest_eq_ok_iff.mp hComputed
      have hInput : Reads nodes vector input (numbers.map .real) :=
        ⟨hTyped.of_append, known, hKnown, Evaluation.readReals_eq_ok_iff.mp hNumbers⟩
      have hInputPorts := hInputs ⟨"input", input, .real⟩ (by simp [Node.inputs])
      obtain ⟨hOutput, hTrees, flags, hEdges, hFlags⟩ :=
        hExpanded.reads_outcome hForest.1 hFollows hMirrors hBefore hInputPorts hInput hOutcome
      obtain ⟨hFirst, hSecond, hThird⟩ := hExpanded.linked
      rcases port with _ | _ | _ | _
      · cases hValues
        exact ⟨_, hFirst, hOutput⟩
      · cases hValues
        exact ⟨_, hSecond, hTrees⟩
      · cases hValues
        rw [hFlags.mpr (hEnters rfl input ensemble numbers rfl hNumbers)] at hEdges
        exact ⟨_, hThird, hEdges⟩
      · cases hValues

/-- A rebuilt node keeps the values of the ports, if they are closed. -/
theorem Mirrors.step (hLinked : Linked nodes before) (hMirrors : Mirrors ports vector nodes before)
    (hReplaces : Replaces nodes node before after) (hAfter : Evaluates after.emitted vector)
    (hClosed : ∀ known, evaluateNodes vector nodes = .ok known →
      ClosedPorts (nodes ++ [node]) known ports) :
    Mirrors ports vector (nodes ++ [node]) after := by
  rintro old new value hPort ⟨selection, hSelection, hNew⟩ hOld
  obtain ⟨more, hEmitted, _⟩ := hReplaces.emitted
  rcases hOld.of_concat with
    ⟨hNode, hBefore⟩ | ⟨hLast, known, computed, values, hKnown, hComputed, hValues, hValue⟩
  · rw [hReplaces.kept (Nat.ne_of_lt hNode)] at hSelection
    rw [hEmitted] at hAfter ⊢
    exact (hMirrors _ _ _ hPort ⟨selection, hSelection, hNew⟩ hBefore).append_nodes hAfter
  -- The element is one of the new node, so its value is what the node computes.
  · have hFound : (nodes ++ [node])[old.output.node]? = some node := by
      rw [hLast]
      simp
    obtain ⟨hInputs, hEnters⟩ := hClosed known hKnown old.output node hPort hFound
    obtain ⟨linked, hLink, hReads⟩ := hReplaces.reads hLinked hOld.1 hMirrors hAfter hInputs
      hKnown hComputed hValues hEnters
    rw [← hLast, hSelection] at hLink
    cases hLink
    obtain ⟨read, hRead, hElement⟩ := hReads.element hNew
    rw [hValue] at hRead
    cases hRead
    exact hElement

end Invariants

/-! ## All steps -/

/-- The rebuild of nodes behind some others, one after the other. -/
inductive Rebuilds : List Node → List Node → Rebuild → Rebuild → Prop where
  | nil {nodes : List Node} {state : Rebuild} : Rebuilds nodes [] state state
  | cons {nodes later : List Node} {node : Node} {before middle after : Rebuild} :
      Replaces nodes node before middle → Rebuilds (nodes ++ [node]) later middle after →
      Rebuilds nodes (node :: later) before after

/-- A forest that is entered over last edges in a whole evaluation is so at its start. -/
theorem Node.EntersLast.of_isPrefix {node : Node} {known later : Evaluation}
    (h : node.EntersLast later) (hPrefix : known.values.toList <+: later.values.toList) :
    node.EntersLast known := by
  intro input ensemble numbers hNode hNumbers
  refine h input ensemble numbers hNode ?_
  rw [Evaluation.readReals_eq_ok_iff] at hNumbers ⊢
  exact Evaluation.read_of_isPrefix hPrefix hNumbers

/-- Closed ports are closed at the start of the nodes and of their evaluation. -/
theorem ClosedPorts.of_isPrefix {nodes more : List Node} {known later : Evaluation}
    {ports : OutputRef → Prop} (h : ClosedPorts (nodes ++ more) later ports)
    (hPrefix : known.values.toList <+: later.values.toList) : ClosedPorts nodes known ports := by
  intro output node hPort hNode
  have hBound := (List.getElem?_eq_some_iff.mp hNode).1
  rw [← List.getElem?_append_left hBound] at hNode
  obtain ⟨hInputs, hEnters⟩ := h output node hPort hNode
  exact ⟨hInputs, fun hEdges => (hEnters hEdges).of_isPrefix hPrefix⟩

namespace Rebuilds

variable {nodes later : List Node} {before after : Rebuild}

theorem options (h : Rebuilds nodes later before after) : after.options = before.options := by
  induction h with
  | nil => rfl
  | cons hNode _ ih => exact ih.trans hNode.options

theorem outputs (h : Rebuilds nodes later before after) :
    after.graph.outputs = before.graph.outputs := by
  induction h with
  | nil => rfl
  | cons hNode _ ih => exact ih.trans hNode.outputs

theorem acceptable (h : Rebuilds nodes later before after) :
    ∀ node ∈ later, node.Acceptable before.options := by
  induction h with
  | nil => simp
  | cons hNode _ ih =>
      rw [hNode.options] at ih
      exact List.forall_mem_cons.mpr ⟨hNode.acceptable, ih⟩

theorem exists_emitted (h : Rebuilds nodes later before after) :
    ∃ more, after.emitted = before.emitted ++ more := by
  induction h with
  | nil => exact ⟨[], by simp⟩
  | cons hNode _ ih =>
      obtain ⟨first, hFirst, _⟩ := hNode.emitted
      obtain ⟨more, hMore⟩ := ih
      exact ⟨first ++ more, by rw [hMore, hFirst, List.append_assoc]⟩

/-- Links from nodes that are done stay. -/
theorem kept (h : Rebuilds nodes later before after) {output : OutputRef}
    (hOutput : output.node < nodes.length) : after.links[output]? = before.links[output]? := by
  induction h with
  | nil => rfl
  | cons hNode _ ih =>
      rw [ih (by simp; omega)]
      exact hNode.kept (Nat.ne_of_lt hOutput)

/-- The rebuild of a row of nodes can be cut anywhere. -/
theorem split {first : List Node} (h : Rebuilds nodes (first ++ later) before after) :
    ∃ middle, Rebuilds nodes first before middle ∧
      Rebuilds (nodes ++ first) later middle after := by
  induction first generalizing nodes before with
  | nil => exact ⟨before, .nil, by simpa using h⟩
  | cons node first ih =>
      cases h with
      | cons hNode hRest =>
          obtain ⟨middle, hFirst, hLater⟩ := ih hRest
          exact ⟨middle, .cons hNode hFirst, by simpa using hLater⟩

/-- All elements of all nodes stay linked. -/
theorem linked (h : Rebuilds nodes later before after)
    (hStandard : ∀ node ∈ later, node.isStandard = true) (hLinked : Linked nodes before) :
    Linked (nodes ++ later) after := by
  induction h with
  | nil => simpa using hLinked
  | cons hNode _ ih =>
      obtain ⟨hFirst, hLater⟩ := List.forall_mem_cons.mp hStandard
      have hAll := ih hLater (hLinked.step hFirst hNode)
      rwa [List.append_assoc] at hAll

/-- The linked elements of closed ports keep their values. -/
theorem mirrors (h : Rebuilds nodes later before after) {vector : List Float}
    {ports : OutputRef → Prop} (hStandard : ∀ node ∈ later, node.isStandard = true)
    (hLinked : Linked nodes before) (hMirrors : Mirrors ports vector nodes before)
    (hAfter : Evaluates after.emitted vector) {known : Evaluation}
    (hKnown : evaluateNodes vector (nodes ++ later) = .ok known)
    (hClosed : ClosedPorts (nodes ++ later) known ports) :
    Mirrors ports vector (nodes ++ later) after := by
  induction h with
  | nil => simpa using hMirrors
  | @cons nodes later node before middle after hNode hRest ih =>
      obtain ⟨hFirst, hLater⟩ := List.forall_mem_cons.mp hStandard
      obtain ⟨more, hMore⟩ := hRest.exists_emitted
      have hMiddle : Evaluates middle.emitted vector := by
        rw [hMore] at hAfter
        exact hAfter.of_append
      rw [List.append_cons] at hKnown hClosed ⊢
      -- One step is known for the nodes up to here, whose evaluation starts the whole one.
      have hStep : Mirrors ports vector (nodes ++ [node]) middle := by
        refine hMirrors.step hLinked hNode hMiddle fun start hStart => hClosed.of_isPrefix ?_
        rw [List.append_assoc, evaluateNodes_append, hStart] at hKnown
        exact isPrefix_of_foldlM hKnown
      exact ih hLater (hLinked.step hFirst hNode) hStep hAfter hKnown hClosed

end Rebuilds

end ForestGraph
