import ForestGraph.Proofs.BuiltGraphs

/-!
# What an evaluation can fail for

The errors of typed graphs.  A forest fails for an index, a width or its shape, never
for a type; an operation on values that fit does not fail at all; so the error of a
graph is that of an input of another width or that of one of its forests.
-/

namespace ForestGraph

/-- The families of the errors that evaluating a forest reports. -/
def Error.OfForest (error : Error) : Prop :=
  error.category = .indexOutOfBounds ∨ error.category = .dimensionMismatch ∨
    error.category = .invariantViolation

/-! ## Forests -/

theorem ofForest_of_feature {input : List Float} {index : Nat} {error : Error}
    (h : feature input index = .error error) : error.OfForest := by
  unfold feature at h
  split at h
  · cases h
  · cases h
    exact .inl rfl

theorem Affine.ofForest_of_apply {function : Affine} {input : List Float} {error : Error}
    (h : function.apply input = .error error) : error.OfForest := by
  obtain ⟨_, rfl⟩ := apply_eq_error_iff.mp h
  exact .inr (.inl rfl)

theorem Rule.ofForest_of_holds {rule : Rule} {input : List Float} {error : Error}
    (h : rule.holds input = .error error) : error.OfForest := by
  cases rule with
  | threshold index bound => exact ofForest_of_feature (except_bind_pure_eq_error_iff.mp h)
  | linear function => exact function.ofForest_of_apply (except_bind_pure_eq_error_iff.mp h)

theorem Predictor.ofForest_of_predict {predictor : Predictor} {input : List Float}
    {error : Error} (h : predictor.predict input = .error error) : error.OfForest := by
  cases predictor with
  | constant value => cases h
  | linear function => exact function.ofForest_of_apply h

namespace Forest

variable {forest : Forest} {input : List Float} {error : Error}

theorem ofForest_of_walkFrom {tree steps current : Nat}
    (h : forest.walkFrom tree input steps current = .error error) : error.OfForest := by
  induction steps generalizing current with
  | zero =>
      cases h
      exact .inr (.inr rfl)
  | succ steps ih =>
      simp only [walkFrom, except_bind_eq_error_iff] at h
      rcases h with hNode | ⟨node, _, hRule | ⟨decision, _, hPredictor | ⟨_, _, hRest⟩⟩⟩
      · unfold Forest.node at hNode
        split at hNode
        · cases hNode
        · cases hNode
          exact .inl rfl
      · exact Rule.ofForest_of_holds hRule
      · exact Predictor.ofForest_of_predict hPredictor
      · split at hRest
        · exact absurd hRest (except_pure_ne_error _ _)
        · split at hRest
          · exact ih (except_bind_pure_eq_error_iff.mp hRest)
          · rw [except_throw_eq_error_iff] at hRest
            subst hRest
            exact .inr (.inr rfl)

theorem ofForest_of_walkInside {tree : Nat}
    (h : forest.walkInside input tree = .error error) : error.OfForest := by
  simp only [walkInside, walk, except_bind_eq_error_iff] at h
  rcases h with (hRoot | ⟨_, _, hWalk⟩) | ⟨path, _, hRest⟩
  · unfold rootOf at hRoot
    split at hRoot
    · cases hRoot
    · cases hRoot
      exact .inl rfl
  · exact ofForest_of_walkFrom hWalk
  · split at hRest
    · rw [except_throw_eq_error_iff] at hRest
      subst hRest
      exact .inr (.inr rfl)
    · exact absurd hRest (except_pure_ne_error _ _)

/-- Evaluating a forest of any shape fails for an index, a width or the shape. -/
theorem ofForest_of_evaluate (h : forest.evaluate input = .error error) : error.OfForest := by
  obtain ⟨tree, _, hTree⟩ := exists_of_mapM_eq_error (except_bind_pure_eq_error_iff.mp h)
  exact ofForest_of_walkInside hTree

end Forest

/-! ## Typed nodes -/

/-- The reasons for which a sequence of nodes fails on a vector. -/
inductive Blames (nodes : List Node) (vector : List Float) : Error → Prop where
  /-- An input of the graph has another width than the vector. -/
  | input {size : Nat} : Node.input size ∈ nodes → vector.length ≠ size →
      Blames nodes vector (.extent (.inputFeatures size) vector.length)
  /-- A forest fails on the features that its node reads of the nodes before. -/
  | forest {before later : List Node} {elements : Selection} {ensemble : Forest}
      {known : Evaluation} {features : List Float} {error : Error} :
      nodes = before ++ .forest elements ensemble :: later →
      evaluateNodes vector before = .ok known → known.readReals elements = .ok features →
      ensemble.evaluate features = .error error → Blames nodes vector error

variable {nodes : List Node} {vector : List Float} {known : Evaluation} {error : Error}

/-- What is blamed is neither a defect of the graph nor a type. -/
theorem Blames.category_ne (h : Blames nodes vector error) :
    error.category ≠ .internal ∧ error.category ≠ .structuralMismatch := by
  cases h with
  | input _ _ => simp [Error.category]
  | forest _ _ _ hError =>
      rcases Forest.ofForest_of_evaluate hError with hCategory | hCategory | hCategory <;>
        simp [hCategory]

theorem Blames.append (h : Blames nodes vector error) (more : List Node) :
    Blames (nodes ++ more) vector error := by
  cases h with
  | input hMem hSize => exact .input (List.mem_append_left _ hMem) hSize
  | forest hNodes hKnown hFeatures hError =>
      subst hNodes
      exact .forest (by rw [List.append_assoc, List.cons_append]) hKnown hFeatures hError

/-- A well-typed node fails on values that fit only if it is an input or a forest. -/
theorem Node.WellTyped.blames_of_compute {node : Node} (hTyped : node.WellTyped nodes)
    (hStandard : node.isStandard = true) (hKnown : evaluateNodes vector nodes = .ok known)
    (hFits : known.Fits nodes) (h : node.compute vector known = .error error) :
    Blames (nodes ++ [node]) vector error := by
  by_cases hOperation : node.isOperation = true
  · obtain ⟨ports, hPorts, _⟩ := hTyped.exists_compute hOperation hFits vector
    rw [hPorts] at h
    cases h
  cases node with
  | input size =>
      have hExtent := except_bind_pure_eq_error_iff.mp h
      unfold Node.checkExtent at hExtent
      split at hExtent
      · cases hExtent
      · rename_i hSize
        cases hExtent
        exact .input (by simp) hSize
  | forest elements ensemble =>
      obtain ⟨features, hFeatures, _⟩ := hFits.exists_readReals
        (hTyped.inputs ⟨"input", elements, .real⟩ (by simp [Node.inputs]))
      simp only [Node.compute, hFeatures] at h
      exact .forest rfl hKnown hFeatures (except_bind_pure_eq_error_iff.mp h)
  | peel depth elements => cases hStandard
  | liar declared produced two => cases hStandard
  | constant _ | sum _ | not _ | select _ _ _ | multiplexer _ _ | dotProduct _ _
  | compare _ _ _ => exact absurd rfl hOperation

namespace TypedSequence

/-- Typed nodes fail only for an input of another width or for a forest: what a node
computes has the declared shape, so no later node misses an element. -/
theorem blames (hTyped : TypedSequence nodes) (h : evaluateNodes vector nodes = .error error) :
    Blames nodes vector error := by
  induction hTyped generalizing error with
  | nil => cases h
  | @concat nodes node hBefore hNode hStandard ih =>
      rw [evaluateNodes_concat, except_bind_eq_error_iff] at h
      rcases h with hEarlier | ⟨known, hKnown, hLast⟩
      · exact (ih hEarlier).append [node]
      · have hFits := hBefore.fits hKnown
        unfold Graph.computeNode at hLast
        rw [except_bind_eq_error_iff] at hLast
        rcases hLast with hCompute | ⟨ports, hPorts, hShape⟩
        · exact hNode.blames_of_compute hStandard hKnown hFits hCompute
        · have hFit := hNode.portsFit hStandard hFits hPorts
          rw [if_pos hFit.map_length] at hShape
          exact absurd hShape (except_pure_ne_error _ _)

/-- A node of a typed sequence reads elements of the nodes before it. -/
theorem reads_earlier (hTyped : TypedSequence nodes) {index : Nat} {node : Node}
    (hNode : nodes[index]? = some node) {input : InputPort} (hInput : input ∈ node.inputs)
    {element : Element} (hElement : element ∈ input.elements) :
    element.output.node < index ∧ element.HasType nodes input.type := by
  obtain ⟨before, later, rfl, rfl⟩ : ∃ before later, nodes = before ++ node :: later ∧
      before.length = index := by
    obtain ⟨hBound, rfl⟩ := List.getElem?_eq_some_iff.mp hNode
    exact ⟨nodes.take index, nodes.drop (index + 1), by simp, by simp; omega⟩
  have hType := hTyped.node_of_append_cons.1.inputs input hInput element hElement
  have hEarlier : element.output.node < before.length := by
    obtain ⟨_, _, hProducer, _⟩ := hType
    exact (List.getElem?_eq_some_iff.mp hProducer).1
  exact ⟨hEarlier, hType.append _⟩

end TypedSequence

/-! ## Graphs made by calls -/

namespace Graph

/-- What can be asked of a graph under construction. -/
inductive Call where
  | add (node : Node)
  | addOutput (name : String) (selection : Selection)

/-- Whether only elementary and forest nodes are added. -/
def Call.isStandard : Call → Bool
  | add node => node.isStandard
  | addOutput .. => true

/-- The graph after a call; one that fails leaves it as it is. -/
def Call.apply (graph : Graph) : Call → Graph
  | add node =>
      match graph.add node with
      | .ok (result, _) => result
      | .error _ => graph
  | addOutput name selection =>
      match graph.addOutput name selection with
      | .ok result => result
      | .error _ => graph

/-- The graph that calls make of the empty one. -/
def assemble (calls : List Call) : Graph :=
  calls.foldl Call.apply empty

/-- A call fails and changes nothing, or it adds its node, or it names its selection. -/
theorem Call.apply_cases (graph : Graph) (call : Call) :
    call.apply graph = graph ∨
      (∃ node index, call = .add node ∧ graph.add node = .ok (call.apply graph, index)) ∨
      ∃ name selection, call = .addOutput name selection ∧
        graph.addOutput name selection = .ok (call.apply graph) := by
  cases call with
  | add node =>
      simp only [Call.apply]
      split
      · rename_i result index hAdd
        exact .inr (.inl ⟨node, index, rfl, hAdd⟩)
      · exact .inl rfl
  | addOutput name selection =>
      simp only [Call.apply]
      split
      · rename_i result hAdd
        exact .inr (.inr ⟨name, selection, rfl, hAdd⟩)
      · exact .inl rfl

theorem Built.apply {graph : Graph} (h : graph.Built) {call : Call}
    (hStandard : call.isStandard = true) : (call.apply graph).Built := by
  rcases call.apply_cases graph with hSame | ⟨_, _, rfl, hAdd⟩ | ⟨_, _, rfl, hAdd⟩
  · rwa [hSame]
  · exact .add h hStandard hAdd
  · exact .addOutput h hAdd

theorem Named.apply {graph : Graph} (h : graph.Named) (call : Call) :
    (call.apply graph).Named := by
  rcases call.apply_cases graph with hSame | ⟨_, _, rfl, hAdd⟩ | ⟨_, _, rfl, hAdd⟩
  · rwa [hSame]
  · exact h.add hAdd
  · exact h.addOutput hAdd

/-- Whatever calls make a graph, its named elements exist. -/
theorem named_assemble (calls : List Call) : (assemble calls).Named := by
  unfold assemble
  induction calls using List.reverseRecOn with
  | nil => exact named_empty
  | append_singleton calls call ih =>
      rw [List.foldl_append]
      exact ih.apply call

theorem Built.foldl_apply {graph : Graph} (h : graph.Built) {calls : List Call}
    (hStandard : ∀ call ∈ calls, call.isStandard = true) :
    (calls.foldl Call.apply graph).Built := by
  induction calls generalizing graph with
  | nil => exact h
  | cons call later ih =>
      obtain ⟨hCall, hLater⟩ := List.forall_mem_cons.mp hStandard
      exact ih (h.apply hCall) hLater

/-- A graph whose elements are well typed, and whose evaluation therefore is. -/
structure TypeSafe (graph : Graph) : Prop where
  /-- Every node reads elements of nodes before it, of the types of its ports. -/
  reads : ∀ {index : Nat} {node : Node}, graph.nodes[index]? = some node →
    ∀ input ∈ node.inputs, ∀ element ∈ input.elements, element.output.node < index ∧
      element.HasType graph.nodes.toList input.type
  /-- Every named element exists. -/
  named : ∀ entry ∈ graph.outputs, Selection.Declared graph.nodes.toList entry.2
  /-- An evaluation fails for an input of another width or for a forest, and so neither
  for a defect of the graph nor for a type. -/
  fails : ∀ vector error, graph.evaluate vector = .error error →
    Blames graph.nodes.toList vector error ∧
      error.category ≠ .internal ∧ error.category ≠ .structuralMismatch
  /-- Without forests, the widths of the inputs decide. -/
  elementary : (∀ node ∈ graph.nodes.toList, node.isForest = false) → ∀ vector,
    (∃ known, graph.evaluate vector = .ok known) ↔
      ∀ size, Node.input size ∈ graph.nodes.toList → vector.length = size
  /-- What is computed are values of the declared numbers, sizes and types. -/
  fits : ∀ vector known, graph.evaluate vector = .ok known → known.Fits graph.nodes.toList
  /-- Every named output is then the values of its elements, of the types of these. -/
  computes : ∀ vector known, graph.evaluate vector = .ok known →
    ∀ entry ∈ graph.outputs, ∃ values, graph.computeOutput vector entry.1 = .ok values ∧
      List.Forall₂ (fun element value => known.value? element = some value ∧
        element.HasType graph.nodes.toList value.type) entry.2 values

/-- Declared elements are read as values of their types. -/
theorem Sound.exists_computeOutput {graph : Graph} (h : graph.Sound)
    (hKnown : graph.evaluate vector = .ok known) {entry : String × Selection}
    (hEntry : entry ∈ graph.outputs) :
    ∃ values, graph.computeOutput vector entry.1 = .ok values ∧
      List.Forall₂ (fun element value => known.value? element = some value ∧
        element.HasType graph.nodes.toList value.type) entry.2 values := by
  have hElements : ∀ element ∈ entry.2, ∃ value, known.value? element = some value ∧
      element.HasType graph.nodes.toList value.type := by
    intro element hElement
    obtain ⟨type, hType⟩ := h.declared entry hEntry element hElement
    obtain ⟨value, hValue, rfl⟩ := (h.typed.fits hKnown).exists_value hType
    exact ⟨value, hValue, hType⟩
  obtain ⟨values, hValues⟩ := exists_forall₂ hElements
  refine ⟨values, ?_, hValues⟩
  have hRead := Evaluation.read_eq_ok_iff.mpr (hValues.imp fun _ _ hValue => hValue.1)
  exact computeOutput_eq_ok_iff.mpr
    ⟨entry.2, h.ordered.find?_of_mem hEntry, known, hKnown, hRead⟩

theorem Sound.typeSafe {graph : Graph} (h : graph.Sound) : graph.TypeSafe where
  reads hNode input hInput element hElement := by
    rw [← Array.getElem?_toList] at hNode
    exact h.typed.reads_earlier hNode hInput hElement
  named := h.declared
  fails vector error hError := by
    have hBlames := h.typed.blames hError
    exact ⟨hBlames, hBlames.category_ne⟩
  elementary hElementary vector := by
    have hIff := @TypedSequence.evaluates_iff _ h.typed
      (validForests_of_elementary hElementary).expandable
      (coveredForests_of_elementary hElementary) vector
    rw [← hIff]
    simp only [Evaluates, h.typed, true_and]
    rfl
  fits vector known hKnown := h.typed.fits hKnown
  computes vector known hKnown entry hEntry := h.exists_computeOutput hKnown hEntry

/-- Whatever calls make a graph, its elements are well typed and its evaluation fails for
an input of another width or a forest only. -/
theorem typeSafe_assemble (calls : List Call)
    (hStandard : ∀ call ∈ calls, call.isStandard = true) : (assemble calls).TypeSafe :=
  (Built.empty.foldl_apply hStandard).sound.typeSafe

/-- A forest behind an input, with a node and an output between them that are refused. -/
theorem typeSafe_assemble_twoTrees :
    ∃ calls : List Call, (∀ call ∈ calls, call.isStandard = true) ∧
      (assemble calls).nodes.toList =
        [.input 2, .forest [⟨⟨0, 0⟩, 1⟩, ⟨⟨0, 0⟩, 0⟩] Forest.twoTrees, .not [⟨⟨1, 2⟩, 5⟩]] ∧
      (assemble calls).outputs = [("flag", [⟨⟨2, 0⟩, 0⟩, ⟨⟨1, 2⟩, 0⟩])] ∧
      (assemble calls).TypeSafe := by
  have hStandard : ∀ call ∈ ([
      .add (.input 2),
      .add (.not [⟨⟨0, 0⟩, 1⟩]),
      .add (.forest [⟨⟨0, 0⟩, 1⟩, ⟨⟨0, 0⟩, 0⟩] Forest.twoTrees),
      .add (.not [⟨⟨1, 2⟩, 5⟩]),
      .addOutput "missing" [⟨⟨1, 2⟩, 6⟩],
      .addOutput "flag" [⟨⟨2, 0⟩, 0⟩, ⟨⟨1, 2⟩, 0⟩]] : List Call), call.isStandard = true := by
    decide
  exact ⟨_, hStandard, rfl, rfl, typeSafe_assemble _ hStandard⟩

end Graph

end ForestGraph
