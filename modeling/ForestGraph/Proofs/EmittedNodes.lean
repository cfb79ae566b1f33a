import ForestGraph.Proofs.Failures
import ForestGraph.Proofs.Refusals

/-!
# What rules and predictors are emitted as

A rule or predictor is emitted as a few nodes that can be listed.  They are computed on
whatever the nodes before them have computed, so these may be of any kind, as long as they
were accepted one by one.  The last of the emitted nodes then holds what the rule or
predictor gives for the numbers that are read, and if there are not enough of them, nothing
is emitted.
-/

namespace ForestGraph

open Rebuild

/-! ## Nodes of any kind -/

/-- Nodes of any kind, each well typed behind the ones before it. -/
inductive Arranged : List Node → Prop where
  | nil : Arranged []
  | concat {nodes : List Node} {node : Node} : Arranged nodes → node.WellTyped nodes →
      Arranged (nodes ++ [node])

variable {nodes later : List Node} {node : Node} {vector : List Float} {known : Evaluation}

/-- What passes the check of its shape is what the node declares. -/
theorem Node.WellTyped.portsFit_of_shape (hTyped : node.WellTyped nodes)
    (hFits : known.Fits nodes) {ports : List (List Value)}
    (hPorts : node.compute vector known = .ok ports)
    (hShape : ports.map List.length = node.outputs.map OutputPort.size) :
    PortsFit ports node.outputs := by
  by_cases hStandard : node.isStandard = true
  · exact hTyped.portsFit hStandard hFits hPorts
  cases node with
  | peel depth elements =>
      simp only [Node.compute, except_bind_eq_ok_iff, except_pure_eq_ok_iff] at hPorts
      obtain ⟨numbers, _, rfl⟩ := hPorts
      exact portsFit_singleton_iff.mpr ⟨by simpa [Node.outputs] using hShape,
        Value.type_of_mem_reals⟩
  | liar declared produced two =>
      cases hPorts
      cases two with
      | true => simp [Node.outputs] at hShape
      | false =>
          refine portsFit_singleton_iff.mpr ⟨by simpa [Node.outputs] using hShape, ?_⟩
          intro value hValue
          rw [List.eq_of_mem_replicate hValue]
          rfl
  | input _ | constant _ | sum _ | not _ | select _ _ _ | multiplexer _ _ | dotProduct _ _
  | compare _ _ _ | forest _ _ => exact absurd rfl hStandard

/-- Whatever the nodes are, their values are those they declare. -/
theorem Arranged.fits (h : Arranged nodes) (hKnown : evaluateNodes vector nodes = .ok known) :
    known.Fits nodes := by
  induction h generalizing known with
  | nil =>
      cases hKnown
      exact .nil
  | @concat nodes node _ hNode ih =>
      rw [evaluateNodes_concat, except_bind_eq_ok_iff] at hKnown
      obtain ⟨before, hBefore, hLast⟩ := hKnown
      obtain ⟨ports, hPorts, hShape, rfl⟩ := Graph.computeNode_eq_ok_iff.mp hLast
      have hFits := ih hBefore
      exact hFits.push (hNode.portsFit_of_shape hFits hPorts hShape)

/-- The nodes of every graph that is made by calls are arranged. -/
theorem Graph.arranged_assemble (calls : List Call) :
    Arranged (assemble calls).nodes.toList := by
  unfold assemble
  induction calls using List.reverseRecOn with
  | nil => exact .nil
  | append_singleton calls call ih =>
      rw [List.foldl_append, List.foldl_cons, List.foldl_nil]
      generalize calls.foldl Call.apply empty = graph at ih
      rcases call.apply_cases graph with hSame | ⟨node, index, _, hAdd⟩ | ⟨_, _, _, hAdd⟩
      · rwa [hSame]
      · obtain ⟨hCheck, hResult⟩ := add_eq_ok_iff.mp hAdd
        have hGraph : call.apply graph = _ := congrArg Prod.fst hResult
        rw [hGraph, Array.toList_push]
        exact .concat ih (check_eq_ok_iff.mp hCheck)
      -- A named selection leaves the nodes alone.
      · obtain ⟨_, hGraph⟩ := addOutput_eq_ok_iff.mp hAdd
        rwa [hGraph]

/-! ## Nodes that are added -/

namespace Rebuild

/-- The state with nodes added to its graph. -/
def append (state : Rebuild) (nodes : List Node) : Rebuild :=
  { state with graph := { state.graph with nodes := state.graph.nodes ++ nodes.toArray } }

variable {before after : Rebuild} {result : Selection}

@[simp] theorem emitted_append (state : Rebuild) (nodes : List Node) :
    (state.append nodes).emitted = state.emitted ++ nodes := by
  simp [emitted, append]

@[simp] theorem append_append (state : Rebuild) (nodes later : List Node) :
    (state.append nodes).append later = state.append (nodes ++ later) := by
  simp [append]

/-- An emitted node is added, and all elements of its port are given. -/
theorem succeeds_emit_iff_append {port : OutputPort} (hPort : node.outputs = [port]) :
    Succeeds (emit node) before result after ↔
      node.WellTyped before.emitted ∧
        result = Selection.ofOutput ⟨before.emitted.length, 0⟩ port.size ∧
        after = before.append [node] := by
  rw [succeeds_emit_iff hPort]
  simp [append]

end Rebuild

/-- The nodes of an affine function, numbered from `base` on. -/
def Affine.emission (function : Affine) (base : Nat) (features : Selection) : List Node :=
  [.constant (.reals function.weights),
    .dotProduct (features.take function.width) (Selection.ofOutput ⟨base, 0⟩ function.width),
    .constant (.reals [function.bias]),
    .sum (Selection.single ⟨base + 1, 0⟩ 0 ++ Selection.single ⟨base + 2, 0⟩ 0)]

/-- The nodes of a rule. -/
def Rule.emission (rule : Rule) (base : Nat) (features : Selection) : List Node :=
  match rule with
  | threshold index bound =>
      [.constant (.reals [bound]),
        .compare .greater features[index]?.toList (Selection.single ⟨base, 0⟩ 0)]
  | linear function =>
      function.emission base features ++
        [.constant (.reals [0]),
          .compare .greater (Selection.single ⟨base + 3, 0⟩ 0) (Selection.single ⟨base + 4, 0⟩ 0)]

/-- The nodes of a predictor. -/
def Predictor.emission (predictor : Predictor) (base : Nat) (features : Selection) : List Node :=
  match predictor with
  | constant value => [.constant (.reals [value])]
  | linear function => function.emission base features

/-- All elements of a port of one element are this one. -/
theorem Selection.ofOutput_one (output : OutputRef) : ofOutput output 1 = single output 0 := rfl

namespace Rebuild.Succeeds

variable {before after : Rebuild} {features result : Selection}

/-- An emitted affine function adds its nodes, the last of which has one element. -/
theorem affine_emission {function : Affine}
    (h : Succeeds (function.emit features) before result after) :
    after = before.append (function.emission before.emitted.length features) ∧
      result = Selection.single ⟨before.emitted.length + 3, 0⟩ 0 := by
  unfold Affine.emit at h
  obtain ⟨leading, state, hLeading, h⟩ := succeeds_bind_iff.mp h
  obtain ⟨hRange, rfl⟩ := succeeds_part_iff.mp hLeading
  obtain ⟨hWidth, rfl⟩ := Selection.range_eq_ok_iff.mp hRange
  obtain ⟨weights, state1, hWeights, h⟩ := succeeds_bind_iff.mp h
  obtain ⟨product, state2, hProduct, h⟩ := succeeds_bind_iff.mp h
  obtain ⟨bias, state3, hBias, hSum⟩ := succeeds_bind_iff.mp h
  obtain ⟨_, rfl, rfl⟩ := (succeeds_emit_iff_append rfl).mp hWeights
  obtain ⟨_, rfl, rfl⟩ := (succeeds_emit_iff_append rfl).mp hProduct
  obtain ⟨_, rfl, rfl⟩ := (succeeds_emit_iff_append rfl).mp hBias
  obtain ⟨_, rfl, rfl⟩ := (succeeds_emit_iff_append rfl).mp hSum
  simp [Affine.emission, Selection.ofOutput_one, Constants.values, Affine.width]

/-- An emitted rule adds its nodes, the last of which has one element. -/
theorem rule_emission {rule : Rule} (h : Succeeds (rule.emit features) before result after) :
    after = before.append (rule.emission before.emitted.length features) ∧
      result = Selection.single ⟨after.emitted.length - 1, 0⟩ 0 := by
  unfold Rule.emit at h
  cases rule with
  | threshold index bound =>
      obtain ⟨feature, state, hFeature, h⟩ := succeeds_bind_iff.mp h
      obtain ⟨hElement, rfl⟩ := succeeds_part_iff.mp hFeature
      obtain ⟨element, hPosition, rfl⟩ := Selection.element_eq_ok_iff.mp hElement
      obtain ⟨limit, state1, hLimit, hCompare⟩ := succeeds_bind_iff.mp h
      obtain ⟨_, rfl, rfl⟩ := (succeeds_emit_iff_append rfl).mp hLimit
      obtain ⟨_, rfl, rfl⟩ := (succeeds_emit_iff_append rfl).mp hCompare
      simp [Rule.emission, hPosition, Selection.ofOutput_one, Constants.values]
  | linear function =>
      obtain ⟨value, state1, hValue, h⟩ := succeeds_bind_iff.mp h
      obtain ⟨zero, state2, hZero, hCompare⟩ := succeeds_bind_iff.mp h
      obtain ⟨rfl, rfl⟩ := hValue.affine_emission
      obtain ⟨_, rfl, rfl⟩ := (succeeds_emit_iff_append rfl).mp hZero
      obtain ⟨_, rfl, rfl⟩ := (succeeds_emit_iff_append rfl).mp hCompare
      simp [Rule.emission, Affine.emission, Selection.ofOutput_one, Constants.values,
        Selection.single]

/-- An emitted predictor adds its nodes, the last of which has one element. -/
theorem predictor_emission {predictor : Predictor}
    (h : Succeeds (predictor.emit features) before result after) :
    after = before.append (predictor.emission before.emitted.length features) ∧
      result = Selection.single ⟨after.emitted.length - 1, 0⟩ 0 := by
  cases predictor with
  | constant value =>
      have hConstant : Succeeds (emit (.constant (.reals [value]))) before result after := h
      obtain ⟨_, rfl, rfl⟩ := (succeeds_emit_iff_append rfl).mp hConstant
      simp [Predictor.emission, Selection.ofOutput_one, Constants.values]
  | linear function =>
      have hAffine : Succeeds (function.emit features) before result after := h
      obtain ⟨rfl, rfl⟩ := hAffine.affine_emission
      simp [Predictor.emission, Affine.emission]

end Rebuild.Succeeds

/-! ## What the added nodes compute -/

/-- What is known once a node of one port is computed behind the nodes before it. -/
structure Evaluation.Next (vector : List Float) (known : Evaluation) (base : Nat) (node : Node)
    (values : List Value) (next : Evaluation) : Prop where
  /-- The nodes behind it go on from there. -/
  run : ∀ later : List Node, (node :: later).foldlM (Graph.computeNode vector) known =
    later.foldlM (Graph.computeNode vector) next
  size : next.values.toList.length = base + 1
  /-- The values of the node are known, and all others stay known. -/
  read : next.read (Selection.ofOutput ⟨base, 0⟩ values.length) = .ok values
  kept : ∀ {selection : Selection} {others : List Value}, known.read selection = .ok others →
    next.read selection = .ok others

namespace Evaluation

variable {base : Nat}

/-- A node of one port can be computed on values that are known. -/
theorem exists_next {port : OutputPort} {values : List Value}
    (hBase : known.values.toList.length = base) (hPort : node.outputs = [port])
    (hCompute : node.compute vector known = .ok [values]) (hSize : values.length = port.size) :
    ∃ next, Next vector known base node values next := by
  have hNode : Graph.computeNode vector known node = .ok (known.push [values]) :=
    Graph.computeNode_eq_ok_iff.mpr ⟨[values], hCompute, by simp [hPort, hSize], rfl⟩
  have hList : (known.push [values]).values.toList = known.values.toList ++ [[values]] :=
    toList_push known [values]
  refine ⟨known.push [values], fun later => ?_, ?_, ?_, fun hRead => ?_⟩
  · rw [List.foldlM_cons, hNode]
    rfl
  · rw [hList, List.length_append, hBase, List.length_singleton]
  · refine read_ofOutput (?_ : _ = some [values]) rfl
    rw [hList, ← hBase, List.getElem?_concat_length]
  · refine read_of_isPrefix ?_ hRead
    rw [hList]
    exact List.prefix_append _ _

variable (vector)

/-- Numbers are known once their constant node is computed. -/
theorem exists_next_reals (hBase : known.values.toList.length = base) (numbers : List Float) :
    ∃ next, Next vector known base (.constant (.reals numbers)) (numbers.map .real) next :=
  exists_next hBase rfl rfl rfl

theorem exists_next_sum (hBase : known.values.toList.length = base) {elements : Selection}
    {numbers : List Float} (hRead : known.read elements = .ok (numbers.map .real)) :
    ∃ next, Next vector known base (.sum elements) [.real (sequentialSum numbers)] next :=
  exists_next hBase rfl (Node.compute_sum (readReals_eq_ok_iff.mpr hRead) vector) rfl

theorem exists_next_dotProduct (hBase : known.values.toList.length = base)
    {left right : Selection} {first second : List Float}
    (hLeft : known.read left = .ok (first.map .real))
    (hRight : known.read right = .ok (second.map .real)) :
    ∃ next, Next vector known base (.dotProduct left right)
      [.real (ForestGraph.dotProduct first second)] next :=
  exists_next hBase rfl (Node.compute_dotProduct (readReals_eq_ok_iff.mpr hLeft)
    (readReals_eq_ok_iff.mpr hRight) vector) rfl

/-- Two numbers are compared. -/
theorem exists_next_compare (hBase : known.values.toList.length = base)
    {left right : Selection} {first second : Float} (comparison : Comparison)
    (hLeft : known.read left = .ok [.real first])
    (hRight : known.read right = .ok [.real second]) :
    ∃ next, Next vector known base (.compare comparison left right)
      [.boolean (comparison.holds first second)] next := by
  have hFirst : known.readReals left = .ok [first] := readReals_eq_ok_iff.mpr hLeft
  have hSecond : known.readReals right = .ok [second] := readReals_eq_ok_iff.mpr hRight
  exact exists_next hBase rfl (Node.compute_compare hFirst hSecond comparison vector)
    (length_of_read hLeft : 1 = left.length)

end Evaluation

variable {base : Nat} {features : Selection} {numbers : List Float}

/-- The nodes of an affine function compute its value on the numbers that are read. -/
theorem Affine.computes_emission {function : Affine}
    (hBase : known.values.toList.length = base)
    (hRead : known.read features = .ok (numbers.map .real))
    (hWidth : function.width ≤ numbers.length) :
    ∃ value result, function.apply numbers = .ok value ∧
      (function.emission base features).foldlM (Graph.computeNode vector) known = .ok result ∧
      result.values.toList.length = base + 4 ∧
      result.read (Selection.single ⟨base + 3, 0⟩ 0) = .ok [.real value] := by
  have hLeading : known.read (features.take function.width) =
      .ok ((numbers.take function.width).map .real) := by
    rw [List.map_take]
    exact Evaluation.read_take hRead function.width
  obtain ⟨known1, hWeights⟩ := Evaluation.exists_next_reals vector hBase function.weights
  have hFactors : known1.read (Selection.ofOutput ⟨base, 0⟩ function.width) =
      .ok (function.weights.map .real) := by
    have hAll := hWeights.read
    rwa [List.length_map] at hAll
  obtain ⟨known2, hProduct⟩ :=
    Evaluation.exists_next_dotProduct vector hWeights.size (hWeights.kept hLeading) hFactors
  obtain ⟨known3, hBias⟩ := Evaluation.exists_next_reals vector hProduct.size [function.bias]
  rw [dotProduct_comm] at hProduct
  have hTerms : known3.read
      (Selection.single ⟨base + 1, 0⟩ 0 ++ Selection.single ⟨base + 2, 0⟩ 0) =
      .ok ([dotProduct function.weights (numbers.take function.width), function.bias].map .real) :=
    Evaluation.read_append_of_ok (hBias.kept hProduct.read) hBias.read
  obtain ⟨known4, hSum⟩ := Evaluation.exists_next_sum vector hBias.size hTerms
  refine ⟨_, known4, apply_eq_ok_iff.mpr ⟨hWidth, rfl⟩, ?_, hSum.size, hSum.read⟩
  rw [Affine.emission, hWeights.run, hProduct.run, hBias.run, hSum.run]
  rfl

/-- The nodes of a rule compute its decision on the numbers that are read. -/
theorem Rule.computes_emission {rule : Rule} (hBase : known.values.toList.length = base)
    (hRead : known.read features = .ok (numbers.map .real))
    (hCovers : Covers numbers.length rule.lastFeature?) :
    ∃ decision result, rule.holds numbers = .ok decision ∧
      (rule.emission base features).foldlM (Graph.computeNode vector) known = .ok result ∧
      result.read (Selection.single ⟨base + (rule.emission base features).length - 1, 0⟩ 0) =
        .ok [.boolean decision] := by
  cases rule with
  | threshold index bound =>
      have hIndex : index < numbers.length := covers_some_iff.mp hCovers
      have hLength := Evaluation.length_of_read hRead
      rw [List.length_map] at hLength
      have hElement : features[index]? = some features[index] :=
        List.getElem?_eq_getElem (by omega)
      obtain ⟨value, hValue, hFeature⟩ := Evaluation.exists_read_element hRead hElement
      rw [List.getElem?_map, Option.map_eq_some_iff] at hValue
      obtain ⟨number, hNumber, rfl⟩ := hValue
      obtain ⟨known1, hBound⟩ := Evaluation.exists_next_reals vector hBase [bound]
      obtain ⟨known2, hCompare⟩ := Evaluation.exists_next_compare vector hBound.size .greater
        (hBound.kept hFeature) hBound.read
      refine ⟨_, known2, ?_, ?_, hCompare.read⟩
      · simp only [holds, feature_eq_ok_iff.mpr hNumber]
        rfl
      · rw [emission, hElement, hBound.run]
        exact hCompare.run []
  | linear function =>
      obtain ⟨value, known1, hValue, hRun, hSize, hHeld⟩ :=
        @Affine.computes_emission vector _ _ _ _ function hBase hRead (Affine.covers_iff.mp hCovers)
      obtain ⟨known2, hZero⟩ := Evaluation.exists_next_reals vector hSize [0]
      obtain ⟨known3, hCompare⟩ := Evaluation.exists_next_compare vector hZero.size .greater
        (hZero.kept hHeld) hZero.read
      refine ⟨_, known3, ?_, ?_, hCompare.read⟩
      · simp only [holds, hValue]
        rfl
      · rw [emission, List.foldlM_append, hRun]
        exact (hZero.run _).trans (hCompare.run [])

/-- The nodes of a predictor compute its prediction on the numbers that are read. -/
theorem Predictor.computes_emission {predictor : Predictor}
    (hBase : known.values.toList.length = base)
    (hRead : known.read features = .ok (numbers.map .real))
    (hCovers : Covers numbers.length predictor.lastFeature?) :
    ∃ value result, predictor.predict numbers = .ok value ∧
      (predictor.emission base features).foldlM (Graph.computeNode vector) known = .ok result ∧
      result.read (Selection.single ⟨base + (predictor.emission base features).length - 1, 0⟩ 0) =
        .ok [.real value] := by
  cases predictor with
  | constant value =>
      obtain ⟨known1, hValue⟩ := Evaluation.exists_next_reals vector hBase [value]
      exact ⟨value, known1, rfl, hValue.run [], hValue.read⟩
  | linear function =>
      obtain ⟨value, known1, hValue, hRun, _, hHeld⟩ :=
        @Affine.computes_emission vector _ _ _ _ function hBase hRead (Affine.covers_iff.mp hCovers)
      exact ⟨value, known1, hValue, hRun, hHeld⟩

/-! ## What is not emitted -/

namespace Rebuild

variable {before after : Rebuild} {error : Error}

/-- An affine function is refused before anything is emitted. -/
theorem Fails.affine_unchanged {function : Affine}
    (hType : Selection.HasType before.emitted .real features)
    (h : Fails (function.emit features) before error after) : after = before := by
  by_cases hWidth : function.width ≤ features.length
  · obtain ⟨_, _, hEmit⟩ := exists_emit_affine hType hWidth
    exact absurd h hEmit.not_fails
  · unfold Affine.emit at h
    rcases fails_bind_iff.mp h with hLeading | ⟨leading, state, hLeading, _⟩
    · exact (fails_part_iff.mp hLeading).2
    · obtain ⟨hRange, _⟩ := succeeds_part_iff.mp hLeading
      have hBound := (Selection.range_eq_ok_iff.mp hRange).1
      rw [Nat.zero_add] at hBound
      exact absurd hBound hWidth

/-- So is a rule. -/
theorem Fails.rule_unchanged {rule : Rule}
    (hType : Selection.HasType before.emitted .real features)
    (h : Fails (rule.emit features) before error after) : after = before := by
  by_cases hCovers : Covers features.length rule.lastFeature?
  · obtain ⟨_, _, hEmit⟩ := exists_emit_rule hType hCovers
    exact absurd h hEmit.not_fails
  unfold Rule.emit at h
  cases rule with
  | threshold index bound =>
      rcases fails_bind_iff.mp h with hFeature | ⟨feature, state, hFeature, _⟩
      · exact (fails_part_iff.mp hFeature).2
      · obtain ⟨hElement, _⟩ := succeeds_part_iff.mp hFeature
        obtain ⟨element, hPosition, _⟩ := Selection.element_eq_ok_iff.mp hElement
        have hIndex := (List.getElem?_eq_some_iff.mp hPosition).1
        exact absurd (covers_some_iff.mpr hIndex) hCovers
  | linear function =>
      rcases fails_bind_iff.mp h with hValue | ⟨value, state, hValue, _⟩
      · exact hValue.affine_unchanged hType
      · exact absurd (Affine.covers_iff.mpr hValue.affine.1) hCovers

/-- So is a predictor. -/
theorem Fails.predictor_unchanged {predictor : Predictor}
    (hType : Selection.HasType before.emitted .real features)
    (h : Fails (predictor.emit features) before error after) : after = before := by
  cases predictor with
  | constant value =>
      obtain ⟨_, _, hEmit⟩ := exists_emit_constant before (.reals [value])
      exact absurd h (Succeeds.not_fails hEmit)
  | linear function => exact Fails.affine_unchanged hType h

/-! ## Emission and direct evaluation -/

/-- What is emitted for a selection of numbers holds the value that is given directly. -/
structure Realizes {α : Type} (emit : Selection → RebuildM Selection) (last? : Option Nat)
    (type : ElementType) (direct : List Float → Except Error α) (tag : α → Value)
    (before : Rebuild) (input : Selection) : Prop where
  /-- There have to be enough elements to read, and this is all. -/
  succeeds_iff : (∃ result after, Succeeds (emit input) before result after) ↔
    last?.elim 0 (· + 1) ≤ input.length
  unchanged : ∀ error after, Fails (emit input) before error after → after = before
  /-- One element comes out, and nodes are added behind the others. -/
  appends : ∀ result after, Succeeds (emit input) before result after →
    ∃ element nodes, result = [element] ∧ element.HasType after.emitted type ∧
      after = before.append nodes
  /-- Where the graph was evaluated it still is: all values are kept, and the element holds what
  is given for the numbers that are read. -/
  computes : ∀ result after vector known, Succeeds (emit input) before result after →
    before.graph.evaluate vector = .ok known →
    ∃ later numbers value, after.graph.evaluate vector = .ok later ∧
      known.values.toList <+: later.values.toList ∧
      known.readReals input = .ok numbers ∧ direct numbers = .ok value ∧
      later.read result = .ok [tag value]

theorem covers_iff_elim {size : Nat} {last? : Option Nat} :
    Covers size last? ↔ last?.elim 0 (· + 1) ≤ size := by
  cases last? with
  | none => exact iff_of_true (covers_none size) (Nat.zero_le size)
  | some last => exact covers_some_iff

variable {input result : Selection} {type : ElementType}

/-- One element of a type comes out of an emission of one. -/
theorem Emits.exists_element (h : Emits before after type 1 result) :
    ∃ element, result = [element] ∧ element.HasType after.emitted type := by
  obtain ⟨element, rfl⟩ := List.length_eq_one_iff.mp h.length
  exact ⟨element, rfl, h.hasType element (List.mem_singleton.mpr rfl)⟩

/-- What is emitted as certain nodes holds what these compute of the numbers that are read. -/
theorem realizes_of_emission {α : Type} {emit : Selection → RebuildM Selection}
    {emission : List Node} {last? : Option Nat} {direct : List Float → Except Error α}
    {tag : α → Value} (hArranged : Arranged before.emitted)
    (hInput : Selection.HasType before.emitted .real input)
    (hExists : Covers input.length last? →
      ∃ result after, Succeeds (emit input) before result after)
    (hEmits : ∀ {result after}, Succeeds (emit input) before result after →
      Covers input.length last? ∧ Emits before after type 1 result ∧
        after = before.append emission ∧
        result = Selection.single ⟨after.emitted.length - 1, 0⟩ 0)
    (hFails : ∀ {error after}, Fails (emit input) before error after → after = before)
    (hComputes : ∀ {vector known numbers}, known.values.toList.length = before.emitted.length →
      known.read input = .ok (numbers.map .real) → Covers numbers.length last? →
      ∃ value later, direct numbers = .ok value ∧
        emission.foldlM (Graph.computeNode vector) known = .ok later ∧
        later.read (Selection.single ⟨before.emitted.length + emission.length - 1, 0⟩ 0) =
          .ok [tag value]) :
    Realizes emit last? type direct tag before input where
  succeeds_iff := by
    rw [← covers_iff_elim]
    exact ⟨fun ⟨_, _, hEmit⟩ => (hEmits hEmit).1, hExists⟩
  unchanged _ _ := hFails
  appends _ _ hEmit := by
    obtain ⟨_, hOne, hAppend, _⟩ := hEmits hEmit
    obtain ⟨element, hResult, hType⟩ := hOne.exists_element
    exact ⟨element, emission, hResult, hType, hAppend⟩
  computes _ _ vector known hEmit hKnown := by
    obtain ⟨hCovers, _, rfl, rfl⟩ := hEmits hEmit
    have hBefore : evaluateNodes vector before.emitted = .ok known := hKnown
    have hFits := hArranged.fits hBefore
    obtain ⟨numbers, hNumbers, hLength⟩ := hFits.exists_readReals hInput
    rw [← hLength] at hCovers
    obtain ⟨value, later, hValue, hLater, hHeld⟩ :=
      hComputes hFits.length_eq (Evaluation.readReals_eq_ok_iff.mp hNumbers) hCovers
    have hAfter : evaluateNodes vector (before.append emission).emitted = .ok later := by
      rw [emitted_append, evaluateNodes_append, hBefore]
      exact hLater
    refine ⟨later, numbers, value, hAfter, isPrefix_of_foldlM hLater, hNumbers, hValue, ?_⟩
    rw [emitted_append, List.length_append]
    exact hHeld

end Rebuild

section Realizes

variable {before : Rebuild} {input : Selection}

/-- An emitted rule holds its decision. -/
theorem Rule.realizes (rule : Rule) (hArranged : Arranged before.emitted)
    (hInput : Selection.HasType before.emitted .real input) :
    Realizes rule.emit rule.lastFeature? .boolean rule.holds .boolean before input := by
  refine realizes_of_emission hArranged hInput (exists_emit_rule hInput) (fun hEmit => ?_)
    (fun hFails => hFails.rule_unchanged hInput) rule.computes_emission
  obtain ⟨hCovers, hEmits, _⟩ := hEmit.rule
  exact ⟨hCovers, hEmits, hEmit.rule_emission⟩

/-- An emitted predictor holds its prediction. -/
theorem Predictor.realizes (predictor : Predictor) (hArranged : Arranged before.emitted)
    (hInput : Selection.HasType before.emitted .real input) :
    Realizes predictor.emit predictor.lastFeature? .real predictor.predict .real before
      input := by
  refine realizes_of_emission hArranged hInput (exists_emit_predictor hInput)
    (fun hEmit => ?_) (fun hFails => hFails.predictor_unchanged hInput)
    predictor.computes_emission
  obtain ⟨hCovers, hEmits, _⟩ := hEmit.predictor
  exact ⟨hCovers, hEmits, hEmit.predictor_emission⟩

/-- Behind the nodes of any graph that is made by calls, and for any selection of its numbers,
a rule is emitted as its decision and a predictor as its prediction. -/
theorem realizes_assemble (calls : List Graph.Call) (before : Rebuild)
    (hMade : before.graph = Graph.assemble calls) (input : Selection)
    (hInput : Selection.HasType before.emitted .real input) :
    (∀ rule : Rule,
      Realizes rule.emit rule.lastFeature? .boolean rule.holds .boolean before input) ∧
    ∀ predictor : Predictor,
      Realizes predictor.emit predictor.lastFeature? .real predictor.predict .real before input := by
  have hArranged : Arranged before.emitted := by
    rw [emitted, hMade]
    exact Graph.arranged_assemble calls
  exact ⟨fun rule => rule.realizes hArranged hInput,
    fun predictor => predictor.realizes hArranged hInput⟩

/-- A linear rule on a number of a peel node, a number of the input, and the first one again. -/
theorem realizes_assemble_peel :
    ∃ before : Rebuild,
      before.graph = Graph.assemble [.add (.input 2), .add (.peel 1 [⟨⟨0, 0⟩, 1⟩])] ∧
      Selection.HasType before.emitted .real [⟨⟨1, 0⟩, 0⟩, ⟨⟨0, 0⟩, 0⟩, ⟨⟨1, 0⟩, 0⟩] ∧
      Realizes (Rule.linear ⟨[1, -1], 0.25⟩).emit (some 1) .boolean
        (Rule.linear ⟨[1, -1], 0.25⟩).holds .boolean before
        [⟨⟨1, 0⟩, 0⟩, ⟨⟨0, 0⟩, 0⟩, ⟨⟨1, 0⟩, 0⟩] := by
  let before : Rebuild := ⟨⟨1, true⟩,
    Graph.assemble [.add (.input 2), .add (.peel 1 [⟨⟨0, 0⟩, 1⟩])], ∅⟩
  have hNodes : before.emitted = [.input 2, .peel 1 [⟨⟨0, 0⟩, 1⟩]] := rfl
  have hInput : Selection.HasType before.emitted .real
      [⟨⟨1, 0⟩, 0⟩, ⟨⟨0, 0⟩, 0⟩, ⟨⟨1, 0⟩, 0⟩] := by
    rw [hNodes]
    intro element hElement
    simp only [List.mem_cons, List.not_mem_nil, or_false] at hElement
    rcases hElement with rfl | rfl | rfl <;> exact ⟨_, _, rfl, rfl, by decide, rfl⟩
  exact ⟨before, rfl, hInput,
    (realizes_assemble _ before rfl _ hInput).1 (.linear ⟨[1, -1], 0.25⟩)⟩

end Realizes

end ForestGraph
