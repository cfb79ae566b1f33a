import ForestGraph.Proofs.Growth
import ForestGraph.Proofs.Shape

/-!
# Graphs that were built

Whatever nodes and outputs are added, in whatever order, the nodes of a graph stay
typed and its outputs stay in the order of their names.  Such a graph fails to
be evaluated for one reason only, as long as its forests are expandable: it has an
input of another width than the vector.
-/

namespace ForestGraph

/-! ## Named selections -/

namespace NamedSelections

/-- Selections in the strict order of their names. -/
def Ordered (outputs : NamedSelections) : Prop :=
  outputs.Pairwise fun entry later => entry.1 < later.1

variable {outputs : NamedSelections} {name : String} {selection : Selection}

theorem mem_of_mem_insert {entry : String × Selection}
    (h : entry ∈ insert outputs name selection) :
    entry = (name, selection) ∨ entry ∈ outputs := by
  induction outputs with
  | nil => exact .inl (List.mem_singleton.mp h)
  | cons first later ih =>
      obtain ⟨present, old⟩ := first
      unfold insert at h
      split at h
      -- A selection of the same name is replaced.
      · rcases List.mem_cons.mp h with hEntry | hMem
        · exact .inl hEntry
        · exact .inr (List.mem_cons_of_mem _ hMem)
      · split at h
        · exact List.mem_cons.mp h
        · rcases List.mem_cons.mp h with hEntry | hMem
          · exact .inr (hEntry ▸ List.mem_cons_self ..)
          · exact (ih hMem).imp_right (List.mem_cons_of_mem _)

/-- The order is one of names only. -/
theorem Ordered.of_names {other : NamedSelections} (h : Ordered outputs)
    (hNames : other.map Prod.fst = outputs.map Prod.fst) : Ordered other := by
  have hPairwise : (outputs.map Prod.fst).Pairwise (· < ·) := List.pairwise_map.mpr h
  rw [← hNames] at hPairwise
  exact List.pairwise_map.mp hPairwise

/-- A new or replaced selection keeps the order. -/
theorem Ordered.insert (h : Ordered outputs) : Ordered (insert outputs name selection) := by
  induction outputs with
  | nil => exact List.pairwise_singleton _ _
  | cons first later ih =>
      obtain ⟨present, old⟩ := first
      obtain ⟨hFirst, hLater⟩ := List.pairwise_cons.mp h
      unfold NamedSelections.insert
      by_cases hSame : name = present
      · rw [if_pos hSame]
        exact List.pairwise_cons.mpr ⟨fun entry hEntry => hSame ▸ hFirst entry hEntry, hLater⟩
      · rw [if_neg hSame]
        by_cases hLess : name < present
        · rw [if_pos hLess]
          refine List.pairwise_cons.mpr ⟨fun entry hEntry => ?_, h⟩
          rcases List.mem_cons.mp hEntry with rfl | hMem
          · exact hLess
          · exact String.lt_trans hLess (hFirst entry hMem)
        · rw [if_neg hLess]
          refine List.pairwise_cons.mpr ⟨fun entry hEntry => ?_, ih hLater⟩
          -- What is inserted further behind is new or was behind already.
          rcases mem_of_mem_insert hEntry with rfl | hMem
          · exact Std.lt_of_le_of_ne (String.not_lt.mp hLess) (Ne.symm hSame)
          · exact hFirst entry hMem

/-- A name behind all others is added at the end. -/
theorem insert_of_forall_lt (h : ∀ entry ∈ outputs, entry.1 < name) :
    insert outputs name selection = outputs ++ [(name, selection)] := by
  induction outputs with
  | nil => rfl
  | cons first later ih =>
      have hFirst := h first (by simp)
      have hNe : name ≠ first.1 := fun hSame => String.ne_of_lt hFirst hSame.symm
      unfold insert
      rw [if_neg hNe, if_neg (String.lt_asymm hFirst),
        ih fun entry hEntry => h entry (by simp [hEntry])]
      rfl

theorem mem_of_find? (h : find? outputs name = some selection) : (name, selection) ∈ outputs := by
  induction outputs with
  | nil => cases h
  | cons first later ih =>
      obtain ⟨present, old⟩ := first
      unfold find? at h
      split at h
      · rename_i hSame
        cases h
        exact hSame ▸ List.mem_cons_self ..
      · exact List.mem_cons_of_mem _ (ih h)

/-- In order, there is one selection of a name. -/
theorem Ordered.find?_of_mem (h : Ordered outputs) (hMem : (name, selection) ∈ outputs) :
    find? outputs name = some selection := by
  induction outputs with
  | nil => simp at hMem
  | cons first later ih =>
      obtain ⟨present, old⟩ := first
      obtain ⟨hFirst, hLater⟩ := List.pairwise_cons.mp h
      unfold find?
      rcases List.mem_cons.mp hMem with hEntry | hIn
      · cases hEntry
        rw [if_pos rfl]
      · rw [if_neg (String.ne_of_lt (hFirst _ hIn))]
        exact ih hLater hIn

end NamedSelections

/-! ## Construction -/

/-- A selection of elements that the nodes of a sequence declare, of any types. -/
def Selection.Declared (nodes : List Node) (selection : Selection) : Prop :=
  ∀ element ∈ selection, ∃ type, element.HasType nodes type

namespace Graph

/-- Graphs made of elementary and forest nodes by adding nodes and naming outputs. -/
inductive Built : Graph → Prop where
  | empty : Built empty
  | add {graph result : Graph} {node : Node} {index : Nat} : Built graph →
      node.isStandard = true → graph.add node = .ok (result, index) → Built result
  | addOutput {graph result : Graph} {name : String} {selection : Selection} : Built graph →
      graph.addOutput name selection = .ok result → Built result

/-- Typed nodes, and outputs of their elements in the order of the names. -/
structure Sound (graph : Graph) : Prop where
  typed : TypedSequence graph.nodes.toList
  ordered : NamedSelections.Ordered graph.outputs
  declared : ∀ entry ∈ graph.outputs, Selection.Declared graph.nodes.toList entry.2

theorem checkOutputElement_eq_ok_iff {graph : Graph} {element : Element} :
    graph.checkOutputElement element = .ok () ↔
      ∃ type, element.HasType graph.nodes.toList type := by
  unfold checkOutputElement Element.HasType
  simp only [except_bind_eq_ok_iff, node_eq_ok_iff, ← Array.getElem?_toList]
  rw [exists_comm]
  refine exists_congr fun node => ?_
  cases hPort : node.outputs[element.output.port]? with
  | none => simp
  | some port =>
      by_cases hSize : port.size ≤ element.index
      · have hOut : ¬ element.index < port.size := by omega
        simp [hSize, hOut]
      · have hIn : element.index < port.size := by omega
        simp [hSize, hIn]

/-- Declared elements may be named. -/
theorem addOutput_eq_ok_iff {graph result : Graph} {name : String} {selection : Selection} :
    graph.addOutput name selection = .ok result ↔
      selection.Declared graph.nodes.toList ∧
        result = { graph with outputs := graph.outputs.insert name selection } := by
  have hChecks : selection.forM graph.checkOutputElement = .ok () ↔
      selection.Declared graph.nodes.toList := by
    rw [forM_eq_ok_iff]
    exact forall₂_congr fun _ _ => checkOutputElement_eq_ok_iff
  unfold addOutput
  simp only [except_bind_eq_ok_iff, except_pure_eq_ok_iff]
  constructor
  · rintro ⟨_, hDeclared, hResult⟩
    exact ⟨hChecks.mp hDeclared, hResult.symm⟩
  · rintro ⟨hDeclared, hResult⟩
    exact ⟨(), hChecks.mpr hDeclared, hResult.symm⟩

/-- Outputs of declared elements, in the order of their names. -/
structure Named (graph : Graph) : Prop where
  ordered : NamedSelections.Ordered graph.outputs
  declared : ∀ entry ∈ graph.outputs, Selection.Declared graph.nodes.toList entry.2

theorem named_empty : empty.Named :=
  ⟨.nil, by simp [empty]⟩

/-- Declared elements stay declared when a node of any kind is added behind them. -/
theorem Named.add {graph result : Graph} {node : Node} {index : Nat} (h : graph.Named)
    (hAdd : graph.add node = .ok (result, index)) : result.Named := by
  obtain ⟨_, hResult⟩ := add_eq_ok_iff.mp hAdd
  cases hResult
  refine ⟨h.ordered, fun entry hEntry element hElement => ?_⟩
  obtain ⟨type, hType⟩ := h.declared entry hEntry element hElement
  exact ⟨type, by simpa using hType.append [node]⟩

theorem Named.addOutput {graph result : Graph} {name : String} {selection : Selection}
    (h : graph.Named) (hAdd : graph.addOutput name selection = .ok result) : result.Named := by
  obtain ⟨hDeclared, rfl⟩ := addOutput_eq_ok_iff.mp hAdd
  refine ⟨h.ordered.insert, fun entry hEntry => ?_⟩
  rcases NamedSelections.mem_of_mem_insert hEntry with rfl | hMem
  · exact hDeclared
  · exact h.declared entry hMem

theorem Sound.named {graph : Graph} (h : graph.Sound) : graph.Named :=
  ⟨h.ordered, h.declared⟩

/-- Every way to build a graph keeps it sound. -/
theorem Built.sound {graph : Graph} (h : graph.Built) : graph.Sound := by
  have hNamed : graph.Named := by
    induction h with
    | empty => exact named_empty
    | add _ _ hAdd ih => exact ih.add hAdd
    | addOutput _ hAdd ih => exact ih.addOutput hAdd
  refine ⟨?_, hNamed.ordered, hNamed.declared⟩
  clear hNamed
  induction h with
  | empty => exact .nil
  | @add graph _ node _ _ hStandard hAdd ih =>
      obtain ⟨hCheck, hResult⟩ := add_eq_ok_iff.mp hAdd
      cases hResult
      have hNodes : (graph.nodes.push node).toList = graph.nodes.toList ++ [node] := by simp
      rw [hNodes]
      exact .concat ih (check_eq_ok_iff.mp hCheck) hStandard
  | addOutput _ hAdd ih =>
      obtain ⟨_, rfl⟩ := addOutput_eq_ok_iff.mp hAdd
      exact ih

end Graph

/-! ## Failing evaluations -/

namespace Evaluation

/-- An evaluation with ports of the declared sizes, whatever the values are. -/
def Sized (known : Evaluation) (nodes : List Node) : Prop :=
  List.Forall₂ (fun ports node => ports.map List.length = node.outputs.map OutputPort.size)
    known.values.toList nodes

variable {known : Evaluation} {nodes : List Node}

theorem Sized.exists_value (h : known.Sized nodes) {type : ElementType} {element : Element}
    (hType : element.HasType nodes type) : ∃ value, known.value? element = some value := by
  obtain ⟨node, port, hNode, hPort, hIndex, _⟩ := hType
  obtain ⟨ports, hPorts, hSizes⟩ := forall₂_getElem?_right h hNode
  have hSize : (ports.map List.length)[element.output.port]? = some port.size := by
    rw [hSizes, List.getElem?_map, hPort]
    rfl
  rw [List.getElem?_map, Option.map_eq_some_iff] at hSize
  obtain ⟨values, hValues, hLength⟩ := hSize
  have hBound : element.index < values.length := hLength ▸ hIndex
  exact ⟨values[element.index], by simp [value?_eq_toList, hPorts, hValues, hBound]⟩

/-- Declared elements are read. -/
theorem Sized.exists_read (h : known.Sized nodes) {selection : Selection}
    (hDeclared : selection.Declared nodes) : ∃ values, known.read selection = .ok values := by
  have hElements : ∀ element ∈ selection, ∃ value, known.value? element = some value := by
    intro element hElement
    obtain ⟨type, hType⟩ := hDeclared element hElement
    exact h.exists_value hType
  obtain ⟨values, hValues⟩ := exists_forall₂ hElements
  exact ⟨values, read_eq_ok_iff.mpr hValues⟩

end Evaluation

/-- Nodes of any kinds are evaluated to ports of the declared sizes. -/
theorem sized_of_evaluateNodes {vector : List Float} {nodes : List Node} {known : Evaluation}
    (h : evaluateNodes vector nodes = .ok known) : known.Sized nodes := by
  induction nodes using List.reverseRecOn generalizing known with
  | nil =>
      cases h
      exact .nil
  | append_singleton nodes node ih =>
      rw [evaluateNodes_concat, except_bind_eq_ok_iff] at h
      obtain ⟨before, hBefore, hLast⟩ := h
      obtain ⟨ports, _, hSizes, rfl⟩ := Graph.computeNode_eq_ok_iff.mp hLast
      unfold Evaluation.Sized
      rw [Evaluation.toList_push]
      exact List.rel_append (ih hBefore) (.cons hSizes .nil)

/-- A named output is read in the evaluation of the graph. -/
theorem Graph.computeOutput_eq_ok_iff {graph : Graph} {vector : List Float} {name : String}
    {values : List Value} :
    graph.computeOutput vector name = .ok values ↔
      ∃ selection, graph.output? name = some selection ∧
        ∃ known, graph.evaluate vector = .ok known ∧ known.read selection = .ok values := by
  unfold computeOutput
  cases graph.output? name with
  | none => simp
  | some selection => simp [except_bind_eq_ok_iff]

/-- What is named is computed whenever the graph is evaluated. -/
theorem Graph.Named.exists_computeOutput {graph : Graph} (h : graph.Named) {vector : List Float}
    {known : Evaluation} (hKnown : graph.evaluate vector = .ok known) {name : String}
    {selection : Selection} (hName : graph.output? name = some selection) :
    ∃ values, graph.computeOutput vector name = .ok values := by
  have hEntry := NamedSelections.mem_of_find? hName
  obtain ⟨values, hRead⟩ := (sized_of_evaluateNodes hKnown).exists_read (h.declared _ hEntry)
  exact ⟨values, computeOutput_eq_ok_iff.mpr ⟨selection, hName, known, hKnown, hRead⟩⟩

/-- The forests of a sequence of nodes are expandable. -/
def ExpandableForests (nodes : List Node) : Prop :=
  ∀ input ensemble, Node.forest input ensemble ∈ nodes → ensemble.Expandable

/-- The forests of a sequence of nodes are valid. -/
def ValidForests (nodes : List Node) : Prop :=
  ∀ input ensemble, Node.forest input ensemble ∈ nodes → ensemble.validate = .ok ()

theorem ValidForests.expandable {nodes : List Node} (h : ValidForests nodes) :
    ExpandableForests nodes :=
  fun input ensemble hMem => (Forest.validate_eq_ok_iff.mp (h input ensemble hMem)).expandable

/-- Without forests there is nothing to check. -/
theorem validForests_of_elementary {nodes : List Node}
    (h : ∀ node ∈ nodes, node.isForest = false) : ValidForests nodes := by
  intro input ensemble hMem
  cases h _ hMem

/-- The inputs of the forests have every feature that the forests read. -/
def CoveredForests (nodes : List Node) : Prop :=
  ∀ input ensemble, Node.forest input ensemble ∈ nodes → ensemble.ReadsBelow input.length

/-- No forest reads the feature of the largest index. -/
def BoundedForests (nodes : List Node) : Prop :=
  ∀ input ensemble, Node.forest input ensemble ∈ nodes → ensemble.ReadsBelow Index.largest

/-- Typed nodes cover their forests, unless one reads the feature of the largest index. -/
theorem TypedSequence.coveredForests {nodes : List Node} (h : TypedSequence nodes)
    (hWords : BoundedForests nodes) : CoveredForests nodes := by
  intro input ensemble hMem
  obtain ⟨before, later, rfl⟩ := List.append_of_mem hMem
  exact (Forest.requiredDimension_le_iff (hWords input ensemble hMem)).mp
    h.node_of_append_cons.1.forest_wide

theorem coveredForests_of_elementary {nodes : List Node}
    (h : ∀ node ∈ nodes, node.isForest = false) : CoveredForests nodes := by
  intro input ensemble hMem
  cases h _ hMem

/-- An expandable forest is evaluated on enough features. -/
theorem Forest.Expandable.exists_evaluate {forest : Forest} (h : forest.Expandable)
    {input : List Float} (hReads : forest.ReadsBelow input.length) :
    ∃ outcome, forest.evaluate input = .ok outcome := by
  obtain ⟨walks, hWalked⟩ := h.exists_walked hReads
  exact ⟨_, Forest.evaluate_eq_ok_iff.mpr ⟨walks, hWalked, rfl⟩⟩

/-- A standard node is computed, unless it is an input of another width. -/
theorem Node.WellTyped.computes_or_fails {node : Node} {nodes : List Node}
    (hTyped : node.WellTyped nodes) (hStandard : node.isStandard = true)
    (hForest : ∀ input ensemble, node = .forest input ensemble →
      ensemble.Expandable ∧ ensemble.ReadsBelow input.length)
    {known : Evaluation} (hFits : known.Fits nodes) (vector : List Float) :
    ((∃ ports, node.compute vector known = .ok ports) ∧
        ∀ size, node = .input size → vector.length = size) ∨
      ∃ size, node = .input size ∧ vector.length ≠ size ∧
        node.compute vector known = .error (.extent (.inputFeatures size) vector.length) := by
  cases node with
  | input size =>
      by_cases hSize : vector.length = size
      · refine .inl ⟨⟨[vector.map .real], ?_⟩, fun other hOther => ?_⟩
        · simp [compute, checkExtent, hSize]
        · cases hOther
          exact hSize
      · refine .inr ⟨size, rfl, hSize, ?_⟩
        simp [compute, checkExtent, hSize]
  | forest elements ensemble =>
      refine .inl ⟨?_, fun _ hInput => by cases hInput⟩
      obtain ⟨numbers, hNumbers, hLength⟩ := hFits.exists_readReals
        (hTyped.inputs ⟨"input", elements, .real⟩ (by simp [Node.inputs]))
      obtain ⟨hExpandable, hReads⟩ := hForest elements ensemble rfl
      rw [← hLength] at hReads
      obtain ⟨outcome, hOutcome⟩ := hExpandable.exists_evaluate hReads
      exact ⟨outcome.ports,
        compute_forest_eq_ok_iff.mpr ⟨numbers, outcome, hNumbers, hOutcome, rfl⟩⟩
  | peel depth elements => cases hStandard
  | liar declared produced two => cases hStandard
  | constant _ | sum _ | not _ | select _ _ _ | multiplexer _ _ | dotProduct _ _
  | compare _ _ _ =>
      obtain ⟨ports, hPorts, _⟩ := hTyped.exists_compute rfl hFits vector
      exact .inl ⟨⟨ports, hPorts⟩, fun _ hInput => by cases hInput⟩

namespace TypedSequence

variable {nodes : List Node}

/-- Typed nodes are evaluated, unless one is an input of another width. -/
theorem evaluates_or_fails (hTyped : TypedSequence nodes) (hForests : ExpandableForests nodes)
    (hCovered : CoveredForests nodes) (vector : List Float) :
    (Evaluates nodes vector ∧ ∀ size, Node.input size ∈ nodes → vector.length = size) ∨
      ∃ size, Node.input size ∈ nodes ∧ vector.length ≠ size ∧
        evaluateNodes vector nodes = .error (.extent (.inputFeatures size) vector.length) := by
  induction hTyped with
  | nil => exact .inl ⟨⟨.nil, .empty, rfl⟩, by simp⟩
  | @concat nodes node hBefore hNode hStandard ih =>
      have hOthers : ExpandableForests nodes :=
        fun input ensemble hMem => hForests input ensemble (List.mem_append_left _ hMem)
      have hOthersCovered : CoveredForests nodes :=
        fun input ensemble hMem => hCovered input ensemble (List.mem_append_left _ hMem)
      -- The first input of another width decides, so what fails before fails in the same way.
      rcases ih hOthers hOthersCovered with ⟨⟨_, known, hKnown⟩, hInputs⟩ | ⟨size, hMem, hSize, hError⟩
      · have hFits := hBefore.fits hKnown
        have hLast : ∀ input ensemble, node = .forest input ensemble →
            ensemble.Expandable ∧ ensemble.ReadsBelow input.length := by
          rintro input ensemble rfl
          exact ⟨hForests input ensemble (by simp), hCovered input ensemble (by simp)⟩
        rw [evaluateNodes_concat, hKnown]
        rcases hNode.computes_or_fails hStandard hLast hFits vector with
          ⟨⟨ports, hPorts⟩, hInput⟩ | ⟨size, rfl, hSize, hError⟩
        · have hFit := hNode.portsFit hStandard hFits hPorts
          refine .inl ⟨⟨.concat hBefore hNode hStandard, known.push ports, ?_⟩, fun size hMem => ?_⟩
          · rw [evaluateNodes_concat, hKnown]
            exact Graph.computeNode_eq_ok_iff.mpr ⟨ports, hPorts, hFit.map_length, rfl⟩
          · rcases List.mem_append.mp hMem with hMem | hMem
            · exact hInputs size hMem
            · exact hInput size (List.mem_singleton.mp hMem).symm
        · refine .inr ⟨size, by simp, hSize, ?_⟩
          show (Node.compute (.input size) vector known >>= _) = _
          rw [hError]
          rfl
      · exact .inr ⟨size, List.mem_append_left _ hMem, hSize,
          evaluateNodes_append_of_error hError _⟩

/-- Typed nodes are evaluated on the vectors of the width of their inputs. -/
theorem evaluates_iff (hTyped : TypedSequence nodes) (hForests : ExpandableForests nodes)
    (hCovered : CoveredForests nodes) {vector : List Float} :
    Evaluates nodes vector ↔ ∀ size, Node.input size ∈ nodes → vector.length = size := by
  rcases hTyped.evaluates_or_fails hForests hCovered vector with
    ⟨h, hInputs⟩ | ⟨size, hMem, hSize, hError⟩
  · exact ⟨fun _ => hInputs, fun _ => h⟩
  · refine ⟨fun ⟨_, known, hKnown⟩ => ?_, fun hInputs => absurd (hInputs size hMem) hSize⟩
    rw [hError] at hKnown
    cases hKnown

end TypedSequence

end ForestGraph
