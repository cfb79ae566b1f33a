import Std.Data.HashMap.Lemmas
import ForestGraph.Proofs.Growth

/-!
# Copied nodes

A copied node reads the elements that the links lead to.  If these hold the
values of the old ones, the copy is accepted like the old node, declares the same
ports and computes the same values.
-/

namespace ForestGraph

namespace Evaluation

variable {known renamed : Evaluation} {selection other : Selection}

theorem readReals_congr (h : renamed.read other = known.read selection) :
    renamed.readReals other = known.readReals selection := by
  unfold readReals
  rw [h]

theorem readBooleans_congr (h : renamed.read other = known.read selection) :
    renamed.readBooleans other = known.readBooleans selection := by
  unfold readBooleans
  rw [h]

theorem readSelector_congr (h : renamed.read other = known.read selection) :
    renamed.readSelector other = known.readSelector selection := by
  unfold readSelector
  rw [readBooleans_congr h]

/-- One element of a selection is read as the value at its position. -/
theorem element_bind_read {values : List Value} (h : known.read selection = .ok values)
    (position : Nat) :
    selection.element position >>= known.read =
      match values[position]? with
      | some value => .ok [value]
      | none => .error (.outOfBounds position values.length) := by
  have hLength := length_of_read h
  rw [read_eq_ok_iff] at h
  cases hElement : selection[position]? with
  | none =>
      have hValue : values[position]? = none := by
        rw [List.getElem?_eq_none_iff] at hElement ⊢
        omega
      rw [hValue, hLength, Selection.element, hElement]
      rfl
  | some element =>
      obtain ⟨value, hValue, hHolds⟩ := forall₂_getElem?_left h hElement
      rw [hValue, Selection.element, hElement]
      exact read_eq_ok_iff.mpr (.cons hHolds .nil)

end Evaluation

namespace Node

/-- A node with every selection it reads replaced. -/
def mapInputs (replace : Selection → Selection) (node : Node) : Node :=
  Id.run (node.mapInputsM fun selection => (pure (replace selection) : Id Selection))

variable {node : Node} {replace : Selection → Selection}

@[simp] theorem inputs_mapInputs :
    (node.mapInputs replace).inputs =
      node.inputs.map fun input => { input with elements := replace input.elements } := by
  cases node <;> rfl

@[simp] theorem isStandard_mapInputs : (node.mapInputs replace).isStandard = node.isStandard := by
  cases node <;> rfl

@[simp] theorem isForest_mapInputs : (node.mapInputs replace).isForest = node.isForest := by
  cases node <;> rfl

@[simp] theorem mapInputs_eq_input_iff {size : Nat} :
    node.mapInputs replace = .input size ↔ node = .input size := by
  cases node <;> simp [mapInputs, mapInputsM]

/-- Selections of the same lengths leave the output ports as they are. -/
theorem outputs_mapInputs
    (h : ∀ input ∈ node.inputs, (replace input.elements).length = input.elements.length) :
    (node.mapInputs replace).outputs = node.outputs := by
  cases node with
  | not _ | select _ _ _ | compare _ _ _ | peel _ _ =>
      have hLength := h _ (List.mem_cons_self ..)
      exact congrArg (fun size => [OutputPort.mk _ _ size]) hLength
  | input _ | constant _ | sum _ | multiplexer _ _ | dotProduct _ _ | forest _ _ | liar _ _ _ => rfl

/-- Selections of the same lengths satisfy the same constraints. -/
theorem checkShape_mapInputs
    (h : ∀ input ∈ node.inputs, (replace input.elements).length = input.elements.length) :
    (node.mapInputs replace).checkShape = node.checkShape := by
  cases node with
  | select input0 input1 selector =>
      simp only [inputs, List.forall_mem_cons] at h
      obtain ⟨hFirst, hSecond, hSelector, _⟩ := h
      show (do
        checkExtent (.inputPort (replace input0).length "input1") (replace input0).length
          (replace input1).length
        checkExtent .selector 1 (replace selector).length) = _
      rw [hFirst, hSecond, hSelector]
      rfl
  | multiplexer elements selector =>
      simp only [inputs, List.forall_mem_cons] at h
      obtain ⟨hElements, hSelector, _⟩ := h
      show (do
        checkExtent .multiplexed 2 (replace elements).length
        checkExtent .selector 1 (replace selector).length) = _
      rw [hElements, hSelector]
      rfl
  | dotProduct left right | compare _ left right =>
      simp only [inputs, List.forall_mem_cons] at h
      obtain ⟨hLeft, hRight, _⟩ := h
      show checkExtent (.inputPort (replace left).length _) (replace left).length
        (replace right).length = _
      rw [hLeft, hRight]
      rfl
  | forest elements ensemble =>
      simp only [inputs, List.forall_mem_cons] at h
      show (if ensemble.requiredDimension ≤ (replace elements).length then _
        else Except.error (Error.extent _ (replace elements).length)) = _
      rw [h.1]
      rfl
  | input _ | constant _ | sum _ | not _ | peel _ _ | liar _ _ _ => rfl

/-- Selections of the same lengths and types are read by a well-typed node. -/
theorem WellTyped.mapInputs {nodes later : List Node} (hTyped : node.WellTyped nodes)
    (h : ∀ input ∈ node.inputs, Selection.HasType later input.type (replace input.elements) ∧
      (replace input.elements).length = input.elements.length) :
    (node.mapInputs replace).WellTyped later := by
  refine ⟨fun input hInput => ?_, ?_⟩
  · rw [inputs_mapInputs] at hInput
    obtain ⟨old, hOld, rfl⟩ := List.mem_map.mp hInput
    exact (h old hOld).1
  · rw [checkShape_mapInputs fun input hInput => (h input hInput).2]
    exact hTyped.shape

/-- Selections that are read as the same values lead to the same result. -/
theorem compute_mapInputs {vector : List Float} {known renamed : Evaluation}
    (h : ∀ input ∈ node.inputs, ∃ values, known.read input.elements = .ok values ∧
      renamed.read (replace input.elements) = .ok values) :
    (node.mapInputs replace).compute vector renamed = node.compute vector known := by
  have hRead : ∀ input ∈ node.inputs,
      renamed.read (replace input.elements) = known.read input.elements := by
    intro input hInput
    obtain ⟨values, hKnown, hRenamed⟩ := h input hInput
    rw [hKnown, hRenamed]
  have hReals : ∀ input ∈ node.inputs,
      renamed.readReals (replace input.elements) = known.readReals input.elements :=
    fun input hInput => Evaluation.readReals_congr (hRead input hInput)
  have hBooleans : ∀ input ∈ node.inputs,
      renamed.readBooleans (replace input.elements) = known.readBooleans input.elements :=
    fun input hInput => Evaluation.readBooleans_congr (hRead input hInput)
  have hSelector : ∀ input ∈ node.inputs,
      renamed.readSelector (replace input.elements) = known.readSelector input.elements :=
    fun input hInput => Evaluation.readSelector_congr (hRead input hInput)
  cases node with
  | sum elements | peel _ elements | forest elements _ =>
      simp only [inputs, List.forall_mem_cons] at hReals
      simp only [Node.mapInputs, mapInputsM, compute]
      exact congrArg (· >>= _) hReals.1
  | not elements =>
      simp only [inputs, List.forall_mem_cons] at hBooleans
      exact congrArg (· >>= _) hBooleans.1
  | select input0 input1 selector =>
      simp only [inputs, List.forall_mem_cons] at hRead hSelector
      obtain ⟨hFirst, hSecond, _⟩ := hRead
      show renamed.readSelector (replace selector) >>= _ = known.readSelector selector >>= _
      rw [hSelector.2.2.1]
      refine congrArg _ (funext fun truth => ?_)
      cases truth with
      | false => exact congrArg (· >>= _) hFirst
      | true => exact congrArg (· >>= _) hSecond
  | multiplexer elements selector =>
      simp only [inputs, List.forall_mem_cons] at h hSelector
      obtain ⟨values, hKnown, hRenamed⟩ := h.1
      show renamed.readSelector (replace selector) >>= _ = known.readSelector selector >>= _
      rw [hSelector.2.1]
      refine congrArg _ (funext fun truth => ?_)
      show (do
        let chosen ← (replace elements).element truth.toNat
        let values ← renamed.read chosen
        return [values]) = do
        let chosen ← elements.element truth.toNat
        let values ← known.read chosen
        return [values]
      rw [← bind_assoc, ← bind_assoc, Evaluation.element_bind_read hKnown,
        Evaluation.element_bind_read hRenamed]
  | dotProduct left right | compare _ left right =>
      simp only [inputs, List.forall_mem_cons] at hReals
      obtain ⟨hLeft, hRight, _⟩ := hReals
      show renamed.readReals (replace left) >>= _ = known.readReals left >>= _
      rw [hLeft]
      exact congrArg _ (funext fun numbers => congrArg (· >>= _) hRight)
  | input _ | constant _ | liar _ _ _ => rfl

end Node

namespace Rebuild

variable {before after : Rebuild}

/-- The elements that a selection is linked to; none if some element is not linked. -/
def followed (links : Std.HashMap OutputRef Selection) (selection : Selection) : Selection :=
  match selection.mapM (followElement links) with
  | .ok parts => parts.flatten
  | .error _ => []

theorem Follows.followed {links : Std.HashMap OutputRef Selection} {selection new : Selection}
    (h : Follows links selection new) : followed links selection = new := by
  unfold Rebuild.followed
  rw [mapM_followElement_eq_ok_iff.mpr ⟨new, h, rfl⟩]
  exact List.flatMap_singleton' new

/-- Following every selection that a node reads replaces them all. -/
theorem succeeds_mapInputsM {node : Node}
    (h : ∀ input ∈ node.inputs,
      Follows before.links input.elements (followed before.links input.elements)) :
    Succeeds (node.mapInputsM follow) before (node.mapInputs (followed before.links)) before := by
  have hFollow : ∀ input ∈ node.inputs, Succeeds (follow input.elements) before
      (followed before.links input.elements) before :=
    fun input hInput => succeeds_follow_iff.mpr ⟨h input hInput, rfl⟩
  have hDone : ∀ copied : Node, Succeeds (pure copied) before copied before :=
    fun copied => succeeds_pure_iff.mpr ⟨rfl, rfl⟩
  cases node with
  | input _ | constant _ | liar _ _ _ => exact hDone _
  | sum elements | not elements | forest elements _ | peel _ elements =>
      simp only [Node.inputs, List.forall_mem_cons] at hFollow
      exact hFollow.1.bind (hDone _)
  | multiplexer first second | dotProduct first second | compare _ first second =>
      simp only [Node.inputs, List.forall_mem_cons] at hFollow
      obtain ⟨hFirst, hSecond, _⟩ := hFollow
      exact hFirst.bind (hSecond.bind (hDone _))
  | select input0 input1 selector =>
      simp only [Node.inputs, List.forall_mem_cons] at hFollow
      obtain ⟨hFirst, hSecond, hSelector, _⟩ := hFollow
      exact hFirst.bind (hSecond.bind (hSelector.bind (hDone _)))

/-! ## Links of a copy -/

/-- Links to the ports of a new node stand for the ports of an old one, and all
other links are as they were. -/
structure Redirects (old new : Nat) (outputs : List OutputPort)
    (before after : Std.HashMap OutputRef Selection) : Prop where
  linked : ∀ {port : Nat} {declared : OutputPort}, outputs[port]? = some declared →
    after[(⟨old, port⟩ : OutputRef)]? = some (Selection.ofOutput ⟨new, port⟩ declared.size)
  kept : ∀ {output : OutputRef}, output.node ≠ old → after[output]? = before[output]?

/-- Ports are linked one after the other. -/
theorem exists_linkPorts {old new : Nat} {node : Node} (ports : List Nat)
    (hNode : before.emitted[new]? = some node)
    (hPorts : ∀ port ∈ ports, port < node.outputs.length) :
    ∃ links, Succeeds (ports.forM fun port => do
        let selection ← elements ⟨new, port⟩
        link ⟨old, port⟩ selection) before () { before with links := links } ∧
      (∀ port ∈ ports, ∀ declared, node.outputs[port]? = some declared →
        links[(⟨old, port⟩ : OutputRef)]? =
          some (Selection.ofOutput ⟨new, port⟩ declared.size)) ∧
      ∀ output : OutputRef, output.node ≠ old ∨ output.port ∉ ports →
        links[output]? = before.links[output]? := by
  induction ports generalizing before with
  | nil => exact ⟨before.links, succeeds_pure_iff.mpr ⟨rfl, rfl⟩, by simp, fun _ _ => rfl⟩
  | cons port later ih =>
      have hBound := hPorts port (by simp)
      have hPort := List.getElem?_eq_getElem hBound
      let selection := Selection.ofOutput ⟨new, port⟩ node.outputs[port].size
      obtain ⟨links, hLater, hLinked, hKept⟩ :=
        @ih { before with links := before.links.insert ⟨old, port⟩ selection } hNode
          fun other hOther => hPorts other (by simp [hOther])
      have hFirst : Succeeds (elements ⟨new, port⟩ >>= link ⟨old, port⟩) before ()
          { before with links := before.links.insert ⟨old, port⟩ selection } :=
        (succeeds_elements hNode hPort).bind (succeeds_link_iff.mpr rfl)
      refine ⟨links, hFirst.bind hLater, ?_, ?_⟩
      · intro other hOther declared hDeclared
        -- A port that is linked again later has the last link, which is the same.
        by_cases hMem : other ∈ later
        · exact hLinked other hMem declared hDeclared
        · obtain rfl := (List.mem_cons.mp hOther).resolve_right hMem
          rw [hPort] at hDeclared
          cases hDeclared
          rw [hKept _ (.inr hMem)]
          exact Std.HashMap.getElem?_insert_self
      · intro output hOutput
        have hLast : output.node ≠ old ∨ output.port ∉ later :=
          hOutput.imp_right fun hMem hIn => hMem (List.mem_cons_of_mem _ hIn)
        have hOther : (⟨old, port⟩ : OutputRef) ≠ output := by
          rintro rfl
          simp at hOutput
        rw [hKept output hLast]
        simp [Std.HashMap.getElem?_insert, hOther]

/-- The ports of an old node are linked to those of a new node. -/
theorem exists_linkAll {old new : Nat} {node : Node} (hNode : before.emitted[new]? = some node) :
    ∃ links, Succeeds (linkAll old new) before () { before with links := links } ∧
      Redirects old new node.outputs before.links links := by
  obtain ⟨links, hPorts, hLinked, hKept⟩ := @exists_linkPorts before old new node
    (List.range node.outputs.length) hNode fun port hPort => List.mem_range.mp hPort
  have hFound : before.graph.node new = .ok node := by
    rw [Graph.node_eq_ok_iff, ← Array.getElem?_toList]
    exact hNode
  refine ⟨links, ?_, fun {port declared} hPort => ?_, fun hOutput => hKept _ (.inl hOutput)⟩
  · refine Succeeds.bind (succeeds_get_iff.mpr ⟨rfl, rfl⟩) ?_
    rw [hFound]
    exact hPorts
  · have hBound := (List.getElem?_eq_some_iff.mp hPort).1
    exact hLinked port (List.mem_range.mpr hBound) declared hPort

/-! ## The copy of a node -/

/-- A node with a copy behind the nodes so far. -/
structure Copied (old : Nat) (node copied : Node) (before after : Rebuild) : Prop where
  options : after.options = before.options
  outputs : after.graph.outputs = before.graph.outputs
  emitted : after.emitted = before.emitted ++ [copied]
  links : Redirects old before.emitted.length node.outputs before.links after.links

/-- A node is copied if its inputs are linked to elements of the same types. -/
theorem exists_copyNode {nodes : List Node} {node : Node} (old : Nat)
    (hNode : node.WellTyped nodes)
    (h : ∀ input ∈ node.inputs,
      Follows before.links input.elements (followed before.links input.elements) ∧
      Selection.HasType before.emitted input.type (followed before.links input.elements)) :
    ∃ after, Succeeds (copyNode old node) before () after ∧
      (node.mapInputs (followed before.links)).WellTyped before.emitted ∧
      Copied old node (node.mapInputs (followed before.links)) before after := by
  have hLength : ∀ input ∈ node.inputs,
      (followed before.links input.elements).length = input.elements.length :=
    fun input hInput => (h input hInput).1.length_eq.symm
  have hTyped := hNode.mapInputs fun input hInput => ⟨(h input hInput).2, hLength input hInput⟩
  have hOutputs := Node.outputs_mapInputs hLength
  have hInputs := succeeds_mapInputsM fun input hInput => (h input hInput).1
  -- From here on only the types and the ports of the copy matter.
  generalize node.mapInputs (followed before.links) = copied at hTyped hOutputs hInputs
  have hAdd := succeeds_add_iff.mpr ⟨hTyped, rfl, rfl⟩
  have hEmitted : Rebuild.emitted { before with
      graph := { before.graph with nodes := before.graph.nodes.push copied } } =
      before.emitted ++ [copied] := by simp [Rebuild.emitted]
  obtain ⟨links, hLinkAll, hLinks⟩ := @exists_linkAll _ old before.emitted.length copied
    (by rw [hEmitted]; simp)
  rw [hOutputs] at hLinks
  exact ⟨_, hInputs.bind (hAdd.bind hLinkAll), hTyped, rfl, rfl, hEmitted, hLinks⟩

end Rebuild

end ForestGraph
