import Mathlib.Data.Set.List
import ForestGraph.Proofs.Typing

/-!
# Evaluating typed graphs

A typed sequence of nodes computes values of the declared numbers and types.
Progress and preservation go node by node: an operation, that is an elementary
node other than an input, never fails on values that fit its inputs, and what
any standard node computes fits its declaration.
-/

namespace ForestGraph

/-- The values of the ports of one node, as its output ports declare them. -/
def PortsFit (ports : List (List Value)) (outputs : List OutputPort) : Prop :=
  List.Forall₂ (fun values port => values.length = port.size ∧
    ∀ value ∈ values, value.type = port.type) ports outputs

/-- An evaluation of exactly the nodes of a sequence, as they declare it. -/
def Evaluation.Fits (known : Evaluation) (nodes : List Node) : Prop :=
  List.Forall₂ (fun ports node => PortsFit ports node.outputs) known.values.toList nodes

/-- The elementary nodes that compute with the values of other nodes or have
values of their own. -/
def Node.isOperation : Node → Bool
  | .input _ | .forest .. | .peel .. | .liar .. => false
  | _ => true

/-- The values of the nodes of a sequence for an input vector. -/
def evaluateNodes (vector : List Float) (nodes : List Node) : Except Error Evaluation :=
  nodes.foldlM (Graph.computeNode vector) Evaluation.empty

theorem Graph.evaluate_eq_evaluateNodes (graph : Graph) (vector : List Float) :
    graph.evaluate vector = evaluateNodes vector graph.nodes.toList := rfl

/-! ## Evaluations that go on -/

theorem evaluateNodes_append (vector : List Float) (nodes more : List Node) :
    evaluateNodes vector (nodes ++ more) =
      evaluateNodes vector nodes >>= more.foldlM (Graph.computeNode vector) := by
  unfold evaluateNodes
  rw [List.foldlM_append]

theorem evaluateNodes_concat (vector : List Float) (nodes : List Node) (node : Node) :
    evaluateNodes vector (nodes ++ [node]) =
      evaluateNodes vector nodes >>= fun known => Graph.computeNode vector known node := by
  rw [evaluateNodes_append]
  congr 1
  funext known
  simp

/-- Nodes behind a failure do not change it. -/
theorem evaluateNodes_append_of_error {vector : List Float} {nodes : List Node} {error : Error}
    (h : evaluateNodes vector nodes = .error error) (more : List Node) :
    evaluateNodes vector (nodes ++ more) = .error error := by
  rw [evaluateNodes_append, h]
  rfl

/-- A node is computed when its ports have the declared sizes. -/
theorem Graph.computeNode_eq_ok_iff {vector : List Float} {known result : Evaluation}
    {node : Node} :
    Graph.computeNode vector known node = .ok result ↔
      ∃ ports, node.compute vector known = .ok ports ∧
        ports.map List.length = node.outputs.map OutputPort.size ∧
        result = known.push ports := by
  unfold Graph.computeNode
  rw [except_bind_eq_ok_iff]
  refine exists_congr fun ports => and_congr_right fun _ => ?_
  by_cases hShape : ports.map List.length = node.outputs.map OutputPort.size
  · rw [if_pos hShape, except_pure_eq_ok_iff]
    exact ⟨fun h => ⟨hShape, h.symm⟩, fun h => h.2.symm⟩
  · rw [if_neg hShape]
    exact ⟨fun h => absurd h (except_throw_ne_ok _ _), fun h => absurd h.1 hShape⟩

namespace Evaluation

@[simp] theorem toList_push (known : Evaluation) (ports : List (List Value)) :
    (known.push ports).values.toList = known.values.toList ++ [ports] := by
  simp [push]

theorem value?_eq_toList (known : Evaluation) (element : Element) :
    known.value? element =
      (known.values.toList[element.output.node]?).bind fun ports =>
        (ports[element.output.port]?).bind fun values => values[element.index]? := by
  rw [value?, Array.getElem?_toList]

/-- A computed value stays what it is while more nodes are computed. -/
theorem value?_of_isPrefix {known later : Evaluation}
    (h : known.values.toList <+: later.values.toList) {element : Element} {value : Value}
    (hValue : known.value? element = some value) : later.value? element = some value := by
  rw [value?_eq_toList] at hValue ⊢
  obtain ⟨ports, hPorts, hRest⟩ := Option.bind_eq_some_iff.mp hValue
  rw [List.prefix_iff_getElem?] at h
  have hBound := (List.getElem?_eq_some_iff.mp hPorts)
  obtain ⟨hLt, hEq⟩ := hBound
  rw [h _ hLt, hEq]
  exact hRest

/-- All elements of a computed port are read as its values. -/
theorem read_ofOutput {known : Evaluation} {output : OutputRef} {ports : List (List Value)}
    {values : List Value} (hPorts : known.values.toList[output.node]? = some ports)
    (hValues : ports[output.port]? = some values) :
    known.read (Selection.ofOutput output values.length) = .ok values := by
  rw [read_eq_ok_iff, List.forall₂_iff_get]
  refine ⟨by simp, fun index hLeft hRight => ?_⟩
  simp [value?_eq_toList, Selection.ofOutput, hPorts, hValues]

theorem read_of_isPrefix {known later : Evaluation}
    (h : known.values.toList <+: later.values.toList) {selection : Selection}
    {values : List Value} (hRead : known.read selection = .ok values) :
    later.read selection = .ok values := by
  rw [read_eq_ok_iff] at hRead ⊢
  exact hRead.imp fun _ _ hValue => value?_of_isPrefix h hValue

end Evaluation

/-- Computing further nodes leaves the values of those before in place. -/
theorem isPrefix_of_foldlM {vector : List Float} {nodes : List Node}
    {known later : Evaluation}
    (h : nodes.foldlM (Graph.computeNode vector) known = .ok later) :
    known.values.toList <+: later.values.toList := by
  induction nodes generalizing known with
  | nil =>
      rw [List.foldlM_nil, except_pure_eq_ok_iff] at h
      exact h ▸ List.prefix_refl _
  | cons node nodes ih =>
      rw [List.foldlM_cons, except_bind_eq_ok_iff] at h
      obtain ⟨next, hNode, hNext⟩ := h
      obtain ⟨ports, _, _, rfl⟩ := Graph.computeNode_eq_ok_iff.mp hNode
      refine List.IsPrefix.trans ?_ (ih hNext)
      rw [Evaluation.toList_push]
      exact List.prefix_append _ _

/-! ## Reading typed selections -/

namespace Evaluation

variable {known : Evaluation} {nodes : List Node}

/-- An element of a type holds a value of that type. -/
theorem Fits.exists_value (hFits : known.Fits nodes) {type : ElementType} {element : Element}
    (hType : element.HasType nodes type) :
    ∃ value, known.value? element = some value ∧ value.type = type := by
  obtain ⟨node, port, hNode, hPort, hIndex, rfl⟩ := hType
  obtain ⟨ports, hPorts, hFit⟩ := forall₂_getElem?_right hFits hNode
  obtain ⟨values, hValues, hLength, hTypes⟩ := forall₂_getElem?_right hFit hPort
  have hBound : element.index < values.length := by omega
  refine ⟨values[element.index], ?_, hTypes _ (List.getElem_mem hBound)⟩
  rw [value?_eq_toList, hPorts, Option.bind_some, hValues, Option.bind_some,
    List.getElem?_eq_getElem hBound]

/-- A selection of a type is read as values of that type. -/
theorem Fits.exists_read (hFits : known.Fits nodes) {type : ElementType}
    {selection : Selection} (hType : Selection.HasType nodes type selection) :
    ∃ values, known.read selection = .ok values ∧ ∀ value ∈ values, value.type = type := by
  induction selection with
  | nil => exact ⟨[], rfl, by simp⟩
  | cons element later ih =>
      obtain ⟨value, hValue, hFirst⟩ := hFits.exists_value (hType element (by simp))
      obtain ⟨values, hValues, hLater⟩ :=
        ih fun other hOther => hType other (List.mem_cons_of_mem _ hOther)
      refine ⟨value :: values, ?_, by simpa using ⟨hFirst, hLater⟩⟩
      rw [read_eq_ok_iff] at hValues ⊢
      exact .cons hValue hValues

/-- A selection of numbers is read as numbers. -/
theorem Fits.exists_reals (hFits : known.Fits nodes) {selection : Selection}
    (hType : Selection.HasType nodes .real selection) :
    ∃ numbers : List Float, known.read selection = .ok (numbers.map Value.real) := by
  obtain ⟨values, hRead, hTypes⟩ := hFits.exists_read hType
  have hTagged : values ∈ Set.range (List.map Value.real) := by
    rw [Set.range_list_map]
    intro value hValue
    cases value with
    | real number => exact ⟨number, rfl⟩
    | boolean truth => exact absurd (hTypes _ hValue) (by simp [Value.type])
  obtain ⟨numbers, rfl⟩ := hTagged
  exact ⟨numbers, hRead⟩

/-- A selection of truth values is read as truth values. -/
theorem Fits.exists_booleans (hFits : known.Fits nodes) {selection : Selection}
    (hType : Selection.HasType nodes .boolean selection) :
    ∃ truths : List Bool, known.read selection = .ok (truths.map Value.boolean) := by
  obtain ⟨values, hRead, hTypes⟩ := hFits.exists_read hType
  have hTagged : values ∈ Set.range (List.map Value.boolean) := by
    rw [Set.range_list_map]
    intro value hValue
    cases value with
    | real number => exact absurd (hTypes _ hValue) (by simp [Value.type])
    | boolean truth => exact ⟨truth, rfl⟩
  obtain ⟨truths, rfl⟩ := hTagged
  exact ⟨truths, hRead⟩

/-- A selection of a single truth value is read as a selector. -/
theorem Fits.exists_selector (hFits : known.Fits nodes) {selection : Selection}
    (hType : Selection.HasType nodes .boolean selection) (hSize : selection.length = 1) :
    ∃ truth, known.readSelector selection = .ok truth := by
  obtain ⟨truths, hRead⟩ := hFits.exists_booleans hType
  have hLength : truths.length = 1 := by
    have hValues := length_of_read hRead
    rw [List.length_map] at hValues
    omega
  obtain ⟨truth, rfl⟩ := List.length_eq_one_iff.mp hLength
  exact ⟨truth, readSelector_of_read hRead⟩

/-- A selection of numbers is read through its own reader. -/
theorem Fits.exists_readReals (hFits : known.Fits nodes) {selection : Selection}
    (hType : Selection.HasType nodes .real selection) :
    ∃ numbers, known.readReals selection = .ok numbers ∧ numbers.length = selection.length := by
  obtain ⟨numbers, hRead⟩ := hFits.exists_reals hType
  refine ⟨numbers, readReals_eq_ok_iff.mpr hRead, ?_⟩
  have hValues := length_of_read hRead
  rwa [List.length_map] at hValues

end Evaluation

/-! ## Progress -/

@[simp] theorem portsFit_singleton_iff {values : List Value} {port : OutputPort} :
    PortsFit [values] [port] ↔
      values.length = port.size ∧ ∀ value ∈ values, value.type = port.type := by
  simp [PortsFit]

theorem Value.type_of_mem_reals {numbers : List Float} :
    ∀ value ∈ numbers.map Value.real, value.type = .real := by
  intro value hValue
  obtain ⟨number, _, rfl⟩ := List.mem_map.mp hValue
  rfl

theorem Value.type_of_mem_booleans {truths : List Bool} :
    ∀ value ∈ truths.map Value.boolean, value.type = .boolean := by
  intro value hValue
  obtain ⟨truth, _, rfl⟩ := List.mem_map.mp hValue
  rfl

/-- Constants have the type they declare. -/
theorem Constants.type_of_mem_values {constants : Constants} :
    ∀ value ∈ constants.values, value.type = constants.type := by
  cases constants with
  | reals numbers => exact Value.type_of_mem_reals
  | booleans truths => exact Value.type_of_mem_booleans

namespace Node

theorem checkExtent_eq_ok_iff {expected : Expectation} {needed actual : Nat} {done : Unit} :
    checkExtent expected needed actual = .ok done ↔ actual = needed := by
  unfold checkExtent
  split <;> simp_all

variable {nodes : List Node} {known : Evaluation}

/-- A forest node evaluates its forest on the features it reads. -/
theorem compute_forest_eq_ok_iff {input : Selection} {ensemble : Forest} {vector : List Float}
    {ports : List (List Value)} :
    (forest input ensemble).compute vector known = .ok ports ↔
      ∃ numbers outcome, known.readReals input = .ok numbers ∧
        ensemble.evaluate numbers = .ok outcome ∧ ports = outcome.ports := by
  simp only [compute, except_bind_eq_ok_iff, except_pure_eq_ok_iff, exists_and_left]
  simp only [@eq_comm _ ports]

/-- A select reads the input that its selector chooses. -/
theorem compute_select {input0 input1 selector : Selection} {truth : Bool} {values : List Value}
    (hSelector : known.readSelector selector = .ok truth)
    (hRead : known.read (if truth then input1 else input0) = .ok values) (vector : List Float) :
    (select input0 input1 selector).compute vector known = .ok [values] := by
  simp only [compute, hSelector]
  show (known.read _ >>= fun values => pure [values]) = _
  rw [hRead]
  rfl

/-- A multiplexer reads the element at the position that its selector chooses. -/
theorem compute_multiplexer {elements selector chosen : Selection} {truth : Bool}
    {values : List Value} (hSelector : known.readSelector selector = .ok truth)
    (hChosen : elements.element truth.toNat = .ok chosen)
    (hRead : known.read chosen = .ok values) (vector : List Float) :
    (multiplexer elements selector).compute vector known = .ok [values] := by
  simp only [compute, hSelector]
  show (elements.element truth.toNat >>= fun chosen =>
    known.read chosen >>= fun values => pure [values]) = _
  rw [hChosen]
  show (known.read _ >>= fun values => pure [values]) = _
  rw [hRead]
  rfl

/-! The nodes that compute with numbers give one port of what these make. -/

theorem compute_sum {elements : Selection} {numbers : List Float}
    (h : known.readReals elements = .ok numbers) (vector : List Float) :
    (sum elements).compute vector known = .ok [[.real (sequentialSum numbers)]] := by
  simp only [compute, h]
  rfl

theorem compute_dotProduct {input1 input2 : Selection} {left right : List Float}
    (hLeft : known.readReals input1 = .ok left) (hRight : known.readReals input2 = .ok right)
    (vector : List Float) :
    (dotProduct input1 input2).compute vector known =
      .ok [[.real (ForestGraph.dotProduct left right)]] := by
  simp only [compute, hLeft, hRight]
  rfl

theorem compute_compare {left right : Selection} {first second : List Float}
    (hLeft : known.readReals left = .ok first) (hRight : known.readReals right = .ok second)
    (comparison : Comparison) (vector : List Float) :
    (compare comparison left right).compute vector known =
      .ok [((first.zip second).map fun pair => comparison.holds pair.1 pair.2).map .boolean] := by
  simp only [compute, hLeft, hRight, List.map_map]
  rfl

theorem WellTyped.exists_compute_select {input0 input1 selector : Selection}
    (hTyped : (select input0 input1 selector).WellTyped nodes) (hFits : known.Fits nodes)
    (vector : List Float) :
    ∃ ports, (select input0 input1 selector).compute vector known = .ok ports ∧
      PortsFit ports (select input0 input1 selector).outputs := by
  have hInputs := hTyped.inputs
  have hShape := hTyped.shape
  simp only [checkShape, except_bind_eq_ok_iff, checkExtent_eq_ok_iff] at hShape
  obtain ⟨_, hSame, hOne⟩ := hShape
  obtain ⟨truth, hTruth⟩ :=
    hFits.exists_selector (hInputs ⟨"selector", selector, .boolean⟩ (by simp [Node.inputs])) hOne
  -- Both inputs have the declared length, so it does not matter which one is chosen.
  have hChosen : Selection.HasType nodes .real (if truth then input1 else input0) ∧
      (if truth then input1 else input0).length = input0.length := by
    cases truth with
    | false => exact ⟨hInputs ⟨"input0", input0, .real⟩ (by simp [Node.inputs]), rfl⟩
    | true => exact ⟨hInputs ⟨"input1", input1, .real⟩ (by simp [Node.inputs]), hSame⟩
  obtain ⟨values, hRead, hTypes⟩ := hFits.exists_read hChosen.1
  have hLength := Evaluation.length_of_read hRead
  refine ⟨[values], compute_select hTruth hRead vector, ?_⟩
  simpa [outputs, hLength, hChosen.2] using hTypes

theorem WellTyped.exists_compute_multiplexer {elements selector : Selection}
    (hTyped : (multiplexer elements selector).WellTyped nodes) (hFits : known.Fits nodes)
    (vector : List Float) :
    ∃ ports, (multiplexer elements selector).compute vector known = .ok ports ∧
      PortsFit ports (multiplexer elements selector).outputs := by
  have hInputs := hTyped.inputs
  have hShape := hTyped.shape
  simp only [checkShape, except_bind_eq_ok_iff, checkExtent_eq_ok_iff] at hShape
  obtain ⟨_, hTwo, hOne⟩ := hShape
  obtain ⟨truth, hTruth⟩ :=
    hFits.exists_selector (hInputs ⟨"selector", selector, .boolean⟩ (by simp [Node.inputs])) hOne
  -- Two elements are enough for both truth values.
  have hBound : truth.toNat < elements.length := by
    cases truth <;> simp [hTwo]
  have hElement : elements.element truth.toNat = .ok [elements[truth.toNat]] :=
    Selection.element_eq_ok_iff.mpr ⟨_, List.getElem?_eq_getElem hBound, rfl⟩
  have hChosen : Selection.HasType nodes .boolean [elements[truth.toNat]] := by
    intro element hMem
    rw [List.mem_singleton.mp hMem]
    exact hInputs ⟨"elements", elements, .boolean⟩ (by simp [Node.inputs]) _
      (List.getElem_mem hBound)
  obtain ⟨values, hRead, hTypes⟩ := hFits.exists_read hChosen
  have hLength := Evaluation.length_of_read hRead
  refine ⟨[values], compute_multiplexer hTruth hElement hRead vector, ?_⟩
  simpa [outputs, hLength] using hTypes

/-- Progress: an operation computes what it declares from values that fit. -/
theorem WellTyped.exists_compute {node : Node} (hTyped : node.WellTyped nodes)
    (hOperation : node.isOperation = true) (hFits : known.Fits nodes) (vector : List Float) :
    ∃ ports, node.compute vector known = .ok ports ∧ PortsFit ports node.outputs := by
  have hInputs := hTyped.inputs
  have hShape := hTyped.shape
  cases node with
  | input size => cases hOperation
  | forest elements ensemble => cases hOperation
  | peel depth elements => cases hOperation
  | liar declared produced two => cases hOperation
  | constant constants =>
      exact ⟨[constants.values], rfl,
        portsFit_singleton_iff.mpr ⟨rfl, Constants.type_of_mem_values⟩⟩
  | sum elements =>
      obtain ⟨numbers, hNumbers, _⟩ :=
        hFits.exists_readReals (hInputs ⟨"input", elements, .real⟩ (by simp [Node.inputs]))
      exact ⟨_, compute_sum hNumbers vector, by simp [outputs, Value.type]⟩
  | not elements =>
      obtain ⟨truths, hRead⟩ :=
        hFits.exists_booleans (hInputs ⟨"input", elements, .boolean⟩ (by simp [Node.inputs]))
      have hTruths := Evaluation.readBooleans_eq_ok_iff.mpr hRead
      have hLength := Evaluation.length_of_read hRead
      refine ⟨[(truths.map (! ·)).map .boolean], ?_, portsFit_singleton_iff.mpr ⟨?_, ?_⟩⟩
      · simp only [compute, hTruths, List.map_map]
        rfl
      · simpa using hLength
      · exact Value.type_of_mem_booleans
  | select input0 input1 selector => exact hTyped.exists_compute_select hFits vector
  | multiplexer elements selector => exact hTyped.exists_compute_multiplexer hFits vector
  | dotProduct input1 input2 =>
      obtain ⟨left, hLeft, _⟩ :=
        hFits.exists_readReals (hInputs ⟨"input1", input1, .real⟩ (by simp [Node.inputs]))
      obtain ⟨right, hRight, _⟩ :=
        hFits.exists_readReals (hInputs ⟨"input2", input2, .real⟩ (by simp [Node.inputs]))
      exact ⟨_, compute_dotProduct hLeft hRight vector, by simp [outputs, Value.type]⟩
  | compare comparison left right =>
      simp only [checkShape, checkExtent_eq_ok_iff] at hShape
      obtain ⟨first, hFirst, hFirstLength⟩ :=
        hFits.exists_readReals (hInputs ⟨"lhs", left, .real⟩ (by simp [Node.inputs]))
      obtain ⟨second, hSecond, hSecondLength⟩ :=
        hFits.exists_readReals (hInputs ⟨"rhs", right, .real⟩ (by simp [Node.inputs]))
      refine ⟨_, compute_compare hFirst hSecond comparison vector,
        portsFit_singleton_iff.mpr ⟨?_, Value.type_of_mem_booleans⟩⟩
      simp [hFirstLength, hSecondLength, hShape]

end Node

/-! ## Preservation -/

/-- The outcome of a forest holds one value for every tree and edge. -/
theorem Forest.length_of_evaluate {forest : Forest} {input : List Float} {outcome : Outcome}
    (h : forest.evaluate input = .ok outcome) :
    outcome.treeOutputs.length = forest.treeCount ∧
      outcome.edgeIndicator.length = forest.edgeCount := by
  rw [Forest.evaluate, except_bind_eq_ok_iff] at h
  obtain ⟨paths, hPaths, hOutcome⟩ := h
  have hLength := (mapM_eq_ok_iff.mp hPaths).length_eq
  rw [List.length_range] at hLength
  rw [except_pure_eq_ok_iff] at hOutcome
  subst hOutcome
  exact ⟨by simp [hLength], by simp⟩

/-- The values of a forest have the declared sizes if there is one for each tree and one
for each edge. -/
theorem portsFit_outcome {ensemble : Forest} (input : Selection) {outcome : Outcome}
    (hTrees : outcome.treeOutputs.length = ensemble.treeCount)
    (hEdges : outcome.edgeIndicator.length = ensemble.edgeCount) :
    PortsFit outcome.ports (Node.forest input ensemble).outputs := by
  refine .cons ⟨rfl, @Value.type_of_mem_reals [outcome.output]⟩
    (.cons ⟨?_, Value.type_of_mem_reals⟩ (.cons ⟨?_, Value.type_of_mem_booleans⟩ .nil))
  · rw [List.length_map]
    exact hTrees
  · rw [List.length_map]
    exact hEdges

/-- Preservation: what a standard node computes is what it declares. -/
theorem Node.WellTyped.portsFit {nodes : List Node} {known : Evaluation} {node : Node}
    (hTyped : node.WellTyped nodes) (hStandard : node.isStandard = true)
    (hFits : known.Fits nodes) {vector : List Float} {ports : List (List Value)}
    (hPorts : node.compute vector known = .ok ports) : PortsFit ports node.outputs := by
  -- Operations are known from progress; inputs and forests are left.
  by_cases hOperation : node.isOperation = true
  · obtain ⟨computed, hComputed, hFit⟩ := hTyped.exists_compute hOperation hFits vector
    rw [hComputed] at hPorts
    exact Except.ok.inj hPorts ▸ hFit
  cases node with
  | input size =>
      simp only [Node.compute, except_bind_eq_ok_iff, Node.checkExtent_eq_ok_iff,
        except_pure_eq_ok_iff] at hPorts
      obtain ⟨_, hSize, rfl⟩ := hPorts
      exact portsFit_singleton_iff.mpr ⟨by simpa using hSize, Value.type_of_mem_reals⟩
  | forest elements ensemble =>
      obtain ⟨features, outcome, _, hOutcome, rfl⟩ := Node.compute_forest_eq_ok_iff.mp hPorts
      obtain ⟨hTrees, hEdges⟩ := Forest.length_of_evaluate hOutcome
      exact portsFit_outcome elements hTrees hEdges
  | peel depth elements => cases hStandard
  | liar declared produced two => cases hStandard
  | constant _ | sum _ | not _ | select _ _ _ | multiplexer _ _ | dotProduct _ _
  | compare _ _ _ => exact absurd rfl hOperation

theorem Evaluation.Fits.push {known : Evaluation} {nodes : List Node} (hFits : known.Fits nodes)
    {node : Node} {ports : List (List Value)} (hPorts : PortsFit ports node.outputs) :
    (known.push ports).Fits (nodes ++ [node]) := by
  unfold Evaluation.Fits
  rw [Evaluation.toList_push]
  exact List.rel_append hFits (.cons hPorts .nil)

theorem PortsFit.map_length {ports : List (List Value)} {outputs : List OutputPort}
    (h : PortsFit ports outputs) : ports.map List.length = outputs.map OutputPort.size := by
  induction h with
  | nil => rfl
  | cons hPort _ ih => rw [List.map_cons, List.map_cons, hPort.1, ih]

namespace TypedSequence

variable {nodes more : List Node} {vector : List Float} {known : Evaluation}

/-- The values of a typed sequence are those it declares. -/
theorem fits (hTyped : TypedSequence nodes) (h : evaluateNodes vector nodes = .ok known) :
    known.Fits nodes := by
  induction hTyped generalizing known with
  | nil =>
      cases h
      exact .nil
  | @concat nodes node _ hNode hStandard ih =>
      rw [evaluateNodes_concat, except_bind_eq_ok_iff] at h
      obtain ⟨before, hBefore, hLast⟩ := h
      obtain ⟨ports, hPorts, _, rfl⟩ := Graph.computeNode_eq_ok_iff.mp hLast
      have hFits := ih hBefore
      exact hFits.push (hNode.portsFit hStandard hFits hPorts)

/-- Operations behind a typed sequence are computed whenever the sequence is. -/
theorem exists_evaluate_append (hTyped : TypedSequence (nodes ++ more))
    (hMore : ∀ node ∈ more, node.isOperation = true)
    (h : evaluateNodes vector nodes = .ok known) :
    ∃ later, evaluateNodes vector (nodes ++ more) = .ok later ∧
      known.values.toList <+: later.values.toList := by
  have hTotal : ∃ later, evaluateNodes vector (nodes ++ more) = .ok later := by
    induction more using List.reverseRecOn with
    | nil => exact ⟨known, by simpa using h⟩
    | append_singleton more node ih =>
        rw [← List.append_assoc] at hTyped ⊢
        obtain ⟨hBefore, hNode, _⟩ := concat_iff.mp hTyped
        obtain ⟨before, hEval⟩ := ih hBefore fun other hOther => hMore other (by simp [hOther])
        obtain ⟨ports, hPorts, hFit⟩ :=
          hNode.exists_compute (hMore node (by simp)) (hBefore.fits hEval) vector
        refine ⟨before.push ports, ?_⟩
        rw [evaluateNodes_concat, hEval]
        exact Graph.computeNode_eq_ok_iff.mpr ⟨ports, hPorts, hFit.map_length, rfl⟩
  obtain ⟨later, hLater⟩ := hTotal
  refine ⟨later, hLater, ?_⟩
  rw [evaluateNodes_append, h] at hLater
  exact isPrefix_of_foldlM hLater

end TypedSequence

end ForestGraph
