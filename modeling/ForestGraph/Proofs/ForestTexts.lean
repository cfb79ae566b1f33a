import ForestGraph.Forest.Document
import ForestGraph.Proofs.JsonCodec
import ForestGraph.Proofs.JsonRecords
import ForestGraph.Proofs.Splits

/-!
# Forests as JSON texts

With a faithful codec, a valid forest whose numbers are finite is read back from its text,
and so is whatever comes from a text, as often as one likes.  Bias and the other numbers
may grow infinite; a forest that holds such a number is written, but its text is not
accepted again.
-/

namespace ForestGraph

open Json

/-! ## The numbers in a forest -/

/-- The weights and the bias. -/
def Affine.numbers (function : Affine) : List Float :=
  function.weights ++ [function.bias]

/-- The bound, or the numbers of the function. -/
def Rule.numbers : Rule → List Float
  | threshold _ bound => [bound]
  | linear function => function.numbers

/-- The value, or the numbers of the function. -/
def Predictor.numbers : Predictor → List Float
  | constant value => [value]
  | linear function => function.numbers

/-- The numbers of the rule and of the predictors. -/
def Interior.numbers (node : Interior) : List Float :=
  node.rule.numbers ++ node.edges.flatMap fun edge => edge.predictor.numbers

/-- Every threshold, weight, value and bias of a forest. -/
def Forest.numbers (forest : Forest) : List Float :=
  forest.nodes.toList.flatMap Interior.numbers ++ [forest.bias]

/-! ## The kind of a forest -/

/-- A rule of a kind; the index of a feature is a word. -/
def Rule.HasKind (kind : RuleKind) : Rule → Prop
  | threshold index _ => kind = .threshold ∧ index ≤ Index.largest
  | linear _ => kind = .linear

/-- A predictor of a kind. -/
def Predictor.HasKind (kind : PredictorKind) : Predictor → Prop
  | constant _ => kind = .constant
  | linear _ => kind = .linear

/-- An edge with a predictor of a kind; the index of a node is a word. -/
structure Edge.HasKind (kind : ForestKind) (edge : Edge) : Prop where
  predictor : edge.predictor.HasKind kind.predictor
  target : ∀ node ∈ edge.target.node?, node ≤ Index.largest

/-- A node with a rule and edges of a kind. -/
structure Interior.HasKind (kind : ForestKind) (node : Interior) : Prop where
  rule : node.rule.HasKind kind.rule
  edges : ∀ edge ∈ node.edges, edge.HasKind kind
  firstEdge : node.firstEdge ≤ Index.largest

/-- A forest whose rules and predictors are of one kind each, and whose indices are words. -/
structure Forest.HasKind (kind : ForestKind) (forest : Forest) : Prop where
  nodes : ∀ node ∈ forest.nodes.toList, node.HasKind kind
  roots : ∀ root ∈ forest.roots, root ≤ Index.largest

/-! ## What is written is read -/

section Writing

variable {depth : Nat}

theorem Affine.describes (function : Affine) :
    Describes Affine.ofJson? (depth + 2) (.object function.fields) function function.numbers := by
  have hNames : ["weights", "bias"].Nodup := by decide
  have hWeights := describes_list fun weight (_ : weight ∈ function.weights) =>
    @describes_real depth weight
  have hBias := @describes_real (depth + 1) function.bias
  have hRecord : (Document.object function.fields).shown.fullRecord? ["weights", "bias"] = _ :=
    fullRecord?_shown hNames
  rw [List.flatMap_singleton'] at hWeights
  refine ⟨Document.isPlain_object hNames (by simp [fields, hWeights.plain, hBias.plain]), ?_⟩
  rw [Affine.ofJson?, hRecord]
  show ((Document.array (function.weights.map Document.real)).shown.list? real?).bind _ = _
  rw [hWeights.read_eq]
  refine whenFinite_bind ?_
  rw [hBias.read_eq]
  exact whenFinite_bind_some rfl

theorem Rule.HasKind.describes {kind : RuleKind} {rule : Rule} (h : rule.HasKind kind) :
    Describes (Rule.ofJson? kind) (depth + 2) rule.document rule rule.numbers := by
  cases rule with
  | threshold index bound =>
      obtain ⟨rfl, hIndex⟩ := h
      have hNames : ["feature", "threshold"].Nodup := by decide
      have hFeature := @describes_index (depth + 1) index hIndex
      have hBound := @describes_real (depth + 1) bound
      have hRecord : (Rule.threshold index bound).document.shown.fullRecord?
          ["feature", "threshold"] = _ := fullRecord?_shown hNames
      refine ⟨Document.isPlain_object hNames (by simp [hFeature.plain, hBound.plain]), ?_⟩
      simp only [Rule.ofJson?]
      rw [hRecord]
      show ((Document.index index).shown.index?).bind _ = _
      rw [hFeature.read_eq]
      refine whenFinite_bind ?_
      rw [hBound.read_eq]
      exact whenFinite_bind_some rfl
  | linear function =>
      cases h
      have hFunction := @Affine.describes depth function
      refine ⟨hFunction.plain, ?_⟩
      show ((Affine.ofJson? (Document.object function.fields).shown).bind _) = _
      rw [hFunction.read_eq]
      exact whenFinite_bind_some rfl

theorem Predictor.HasKind.describes {kind : PredictorKind} {predictor : Predictor}
    (h : predictor.HasKind kind) :
    Describes (Predictor.ofJson? kind) (depth + 2) predictor.document predictor
      predictor.numbers := by
  cases predictor with
  | constant value =>
      cases h
      have hNames : ["value"].Nodup := by decide
      have hValue := @describes_real (depth + 1) value
      have hRecord : (Predictor.constant value).document.shown.fullRecord? ["value"] = _ :=
        fullRecord?_shown hNames
      refine ⟨Document.isPlain_object hNames (by simp [hValue.plain]), ?_⟩
      simp only [Predictor.ofJson?]
      rw [hRecord]
      show ((Document.real value).shown.real?).bind _ = _
      rw [hValue.read_eq]
      exact whenFinite_bind_some rfl
  | linear function =>
      cases h
      have hFunction := @Affine.describes depth function
      refine ⟨hFunction.plain, ?_⟩
      show ((Affine.ofJson? (Document.object function.fields).shown).bind _) = _
      rw [hFunction.read_eq]
      exact whenFinite_bind_some rfl

theorem Target.describes {target : Target} (h : ∀ node ∈ target.node?, node ≤ Index.largest) :
    Describes Target.ofJson? (depth + 1) target.document target [] := by
  cases target with
  | leaf => exact ⟨.string _, rfl⟩
  | interior node =>
      have hNode := @describes_index depth node (h node rfl)
      refine ⟨Document.isPlain_object (by simp) (by simp [hNode.plain]), ?_⟩
      show ((Document.index node).shown.index?).map Target.interior = _
      rw [hNode.read_eq]
      rfl

theorem Edge.HasKind.describes {kind : ForestKind} {edge : Edge} (h : edge.HasKind kind) :
    Describes (Edge.ofJson? kind) (depth + 3) edge.document edge edge.predictor.numbers := by
  have hNames : ["predictor", "target"].Nodup := by decide
  have hPredictor := @Predictor.HasKind.describes depth _ _ h.predictor
  have hTarget := @Target.describes (depth + 1) _ h.target
  have hRecord : edge.document.shown.fullRecord? ["predictor", "target"] = _ :=
    fullRecord?_shown hNames
  refine ⟨Document.isPlain_object hNames (by simp [hPredictor.plain, hTarget.plain]), ?_⟩
  rw [Edge.ofJson?, hRecord]
  show (Predictor.ofJson? kind.predictor edge.predictor.document.shown).bind _ = _
  rw [hPredictor.read_eq]
  refine whenFinite_bind_some ?_
  rw [hTarget.read_eq]
  rfl

theorem Interior.HasKind.describes {kind : ForestKind} {node : Interior} (h : node.HasKind kind) :
    Describes (Interior.ofJson? kind) (depth + 5) node.document node node.numbers := by
  have hNames : ["split_rule", "outgoing_edges", "first_edge_index"].Nodup := by decide
  have hRule := @Rule.HasKind.describes (depth + 2) _ _ h.rule
  have hEdges := describes_list fun edge hEdge =>
    @Edge.HasKind.describes depth kind edge (h.edges edge hEdge)
  have hFirst := @describes_index (depth + 4) _ h.firstEdge
  have hRecord : node.document.shown.fullRecord?
      ["split_rule", "outgoing_edges", "first_edge_index"] = _ := fullRecord?_shown hNames
  refine ⟨Document.isPlain_object hNames
    (by simp [hRule.plain, hEdges.plain, hFirst.plain]), ?_⟩
  rw [Interior.ofJson?, hRecord, Interior.numbers, whenFinite_append_comm]
  -- The edges are read first.
  show ((Document.array (node.edges.map Edge.document)).shown.list? (Edge.ofJson? kind)).bind _ = _
  rw [hEdges.read_eq]
  refine whenFinite_bind ?_
  show (Rule.ofJson? kind.rule node.rule.document.shown).bind _ = _
  rw [hRule.read_eq]
  refine whenFinite_bind_some ?_
  rw [hFirst.read_eq]
  rfl

/-- A forest is read from its document exactly if its numbers are finite. -/
theorem Forest.HasKind.describes {kind : ForestKind} {forest : Forest} (h : forest.HasKind kind) :
    Describes (Forest.ofJson? kind) (depth + 7) forest.document forest forest.numbers := by
  have hNames : ["interior_nodes", "roots", "bias"].Nodup := by decide
  have hNodes := describes_list fun node hNode =>
    @Interior.HasKind.describes depth kind node (h.nodes node hNode)
  have hRoots := describes_list fun root hRoot =>
    @describes_index (depth + 5) root (h.roots root hRoot)
  have hBias := @describes_real (depth + 6) forest.bias
  have hRecord : forest.document.shown.fullRecord? ["interior_nodes", "roots", "bias"] = _ :=
    fullRecord?_shown hNames
  have hNone : (forest.roots.flatMap fun _ => ([] : List Float)) = [] := by simp
  rw [hNone] at hRoots
  refine ⟨Document.isPlain_object hNames
    (by simp [hNodes.plain, hRoots.plain, hBias.plain]), ?_⟩
  rw [Forest.ofJson?, hRecord]
  show ((Document.array (forest.nodes.toList.map Interior.document)).shown.list?
    (Interior.ofJson? kind)).bind _ = _
  rw [hNodes.read_eq]
  refine whenFinite_bind ?_
  show ((Document.array (forest.roots.map Document.index)).shown.list? index?).bind _ = _
  rw [hRoots.read_eq, whenFinite_nil, Option.bind_some, hBias.read_eq]
  exact whenFinite_bind_some rfl

end Writing

/-! ## What is read can be written -/

/-- Nothing but finite numbers is read as a number. -/
theorem Affine.all_isFinite_of_ofJson? {value : Json} {function : Affine}
    (hFinite : value.IsFinite) (h : Affine.ofJson? value = some function) :
    function.numbers.all Float.isFinite = true := by
  simp only [Affine.ofJson?, Option.bind_eq_bind, Option.bind_eq_some_iff] at h
  obtain ⟨parts, hFields, hParts⟩ := h
  have hAll := hFinite.of_fullRecord? hFields
  split at hParts
  · simp only [Option.bind_eq_some_iff, Option.pure_def, Option.some.injEq] at hParts
    obtain ⟨weights, hWeights, bias, hBias, rfl⟩ := hParts
    simp only [List.forall_mem_cons] at hAll
    rw [Affine.numbers, List.all_append, Bool.and_eq_true, List.all_eq_true]
    refine ⟨fun weight hWeight => ?_, by simp [hAll.2.1.of_real? hBias]⟩
    obtain ⟨part, hPart, hRead⟩ := exists_of_list?_eq_some hAll.1 hWeights hWeight
    exact hPart.of_real? hRead
  · cases hParts

theorem Rule.hasKind_of_ofJson? {kind : RuleKind} {value : Json} {rule : Rule}
    (hFinite : value.IsFinite) (h : Rule.ofJson? kind value = some rule) :
    rule.HasKind kind ∧ rule.numbers.all Float.isFinite = true := by
  cases kind with
  | threshold =>
      simp only [Rule.ofJson?, Option.bind_eq_bind, Option.bind_eq_some_iff] at h
      obtain ⟨parts, hFields, hParts⟩ := h
      have hAll := hFinite.of_fullRecord? hFields
      split at hParts
      · simp only [Option.bind_eq_some_iff, Option.pure_def, Option.some.injEq] at hParts
        obtain ⟨index, hIndex, bound, hBound, rfl⟩ := hParts
        simp only [List.forall_mem_cons] at hAll
        exact ⟨⟨rfl, index?_le hIndex⟩, by simp [Rule.numbers, hAll.2.1.of_real? hBound]⟩
      · cases hParts
  | linear =>
      simp only [Rule.ofJson?, Option.bind_eq_bind, Option.bind_eq_some_iff, Option.pure_def,
        Option.some.injEq] at h
      obtain ⟨function, hFunction, rfl⟩ := h
      exact ⟨rfl, Affine.all_isFinite_of_ofJson? hFinite hFunction⟩

theorem Predictor.hasKind_of_ofJson? {kind : PredictorKind} {value : Json} {predictor : Predictor}
    (hFinite : value.IsFinite) (h : Predictor.ofJson? kind value = some predictor) :
    predictor.HasKind kind ∧ predictor.numbers.all Float.isFinite = true := by
  cases kind with
  | constant =>
      simp only [Predictor.ofJson?, Option.bind_eq_bind, Option.bind_eq_some_iff] at h
      obtain ⟨parts, hFields, hParts⟩ := h
      have hAll := hFinite.of_fullRecord? hFields
      split at hParts
      · simp only [Option.bind_eq_some_iff, Option.pure_def, Option.some.injEq] at hParts
        obtain ⟨number, hNumber, rfl⟩ := hParts
        simp only [List.forall_mem_cons] at hAll
        exact ⟨rfl, by simp [Predictor.numbers, hAll.1.of_real? hNumber]⟩
      · cases hParts
  | linear =>
      simp only [Predictor.ofJson?, Option.bind_eq_bind, Option.bind_eq_some_iff, Option.pure_def,
        Option.some.injEq] at h
      obtain ⟨function, hFunction, rfl⟩ := h
      exact ⟨rfl, Affine.all_isFinite_of_ofJson? hFinite hFunction⟩

theorem Target.le_of_ofJson? {value : Json} {target : Target}
    (h : Target.ofJson? value = some target) : ∀ node ∈ target.node?, node ≤ Index.largest := by
  unfold Target.ofJson? at h
  split at h
  · cases h
    nofun
  · cases h
    nofun
  · obtain ⟨index, hIndex, rfl⟩ := Option.map_eq_some_iff.mp h
    intro node hNode
    cases hNode
    exact index?_le hIndex
  · cases h

theorem Edge.hasKind_of_ofJson? {kind : ForestKind} {value : Json} {edge : Edge}
    (hFinite : value.IsFinite) (h : Edge.ofJson? kind value = some edge) :
    edge.HasKind kind ∧ edge.predictor.numbers.all Float.isFinite = true := by
  simp only [Edge.ofJson?, Option.bind_eq_bind, Option.bind_eq_some_iff] at h
  obtain ⟨parts, hFields, hParts⟩ := h
  have hAll := hFinite.of_fullRecord? hFields
  split at hParts
  · simp only [Option.bind_eq_some_iff, Option.pure_def, Option.some.injEq] at hParts
    obtain ⟨predictor, hPredictor, target, hTarget, rfl⟩ := hParts
    simp only [List.forall_mem_cons] at hAll
    obtain ⟨hKind, hNumbers⟩ := Predictor.hasKind_of_ofJson? hAll.1 hPredictor
    exact ⟨⟨hKind, Target.le_of_ofJson? hTarget⟩, hNumbers⟩
  · cases hParts

theorem Interior.hasKind_of_ofJson? {kind : ForestKind} {value : Json} {node : Interior}
    (hFinite : value.IsFinite) (h : Interior.ofJson? kind value = some node) :
    node.HasKind kind ∧ node.numbers.all Float.isFinite = true := by
  simp only [Interior.ofJson?, Option.bind_eq_bind, Option.bind_eq_some_iff] at h
  obtain ⟨parts, hFields, hParts⟩ := h
  have hAll := hFinite.of_fullRecord? hFields
  split at hParts
  · simp only [Option.bind_eq_some_iff] at hParts
    obtain ⟨edges, hEdges, hPair⟩ := hParts
    simp only [List.forall_mem_cons] at hAll
    split at hPair
    · rename_i onFalse onTrue
      simp only [Option.bind_eq_some_iff, Option.pure_def, Option.some.injEq] at hPair
      obtain ⟨rule, hRule, firstEdge, hFirst, rfl⟩ := hPair
      have hBoth (edge : Edge) (hEdge : edge ∈ [onFalse, onTrue]) :
          edge.HasKind kind ∧ edge.predictor.numbers.all Float.isFinite = true := by
        obtain ⟨part, hPart, hRead⟩ := exists_of_list?_eq_some hAll.2.1 hEdges hEdge
        exact Edge.hasKind_of_ofJson? hPart hRead
      obtain ⟨hKind, hNumbers⟩ := Rule.hasKind_of_ofJson? hAll.1 hRule
      refine ⟨⟨hKind, fun edge hEdge => (hBoth edge hEdge).1, index?_le hFirst⟩, ?_⟩
      rw [Interior.numbers, List.all_append, hNumbers, Bool.true_and, List.all_flatMap,
        List.all_eq_true]
      exact fun edge hEdge => (hBoth edge hEdge).2
    · cases hPair
  · cases hParts

/-- What is read as a forest of a kind is one, and its numbers are finite. -/
theorem Forest.hasKind_of_ofJson? {kind : ForestKind} {value : Json} {forest : Forest}
    (hFinite : value.IsFinite) (h : Forest.ofJson? kind value = some forest) :
    forest.HasKind kind ∧ forest.numbers.all Float.isFinite = true := by
  simp only [Forest.ofJson?, Option.bind_eq_bind, Option.bind_eq_some_iff] at h
  obtain ⟨parts, hFields, hParts⟩ := h
  have hAll := hFinite.of_fullRecord? hFields
  split at hParts
  · simp only [Option.bind_eq_some_iff, Option.pure_def, Option.some.injEq] at hParts
    obtain ⟨nodes, hNodes, roots, hRoots, bias, hBias, rfl⟩ := hParts
    simp only [List.forall_mem_cons] at hAll
    have hEach (node : Interior) (hNode : node ∈ nodes) :
        node.HasKind kind ∧ node.numbers.all Float.isFinite = true := by
      obtain ⟨part, hPart, hRead⟩ := exists_of_list?_eq_some hAll.1 hNodes hNode
      exact Interior.hasKind_of_ofJson? hPart hRead
    refine ⟨⟨fun node hNode => (hEach node (by simpa using hNode)).1, fun root hRoot => ?_⟩, ?_⟩
    · obtain ⟨_, _, hRead⟩ := exists_of_list?_eq_some hAll.2.1 hRoots hRoot
      exact index?_le hRead
    · rw [Forest.numbers, List.all_append, Bool.and_eq_true, List.all_flatMap, List.all_eq_true]
      exact ⟨fun node hNode => (hEach node hNode).2, by simp [hAll.2.2.1.of_real? hBias]⟩
  · cases hParts

/-! ## Round trips -/

namespace Forest

/-- A forest written and read again, any number of times. -/
def rounds (codec : Json.Codec) (kind : ForestKind) : Nat → Forest → Except Error Forest
  | 0, forest => .ok forest
  | count + 1, forest => do
      let text ← forest.toJson codec
      let read ← fromJson codec kind text
      rounds codec kind count read

variable {codec : Json.Codec} {kind : ForestKind} {forest : Forest}

/-- A forest is printed, and what it is read as from its own text. -/
theorem HasKind.exists_toJson (hCodec : codec.Faithful) (h : forest.HasKind kind)
    (hValid : forest.validate = .ok ()) :
    ∃ text, forest.toJson codec = .ok text ∧
      fromJson codec kind text =
        if forest.numbers.all Float.isFinite then .ok forest
        else .error (.malformedJson "the text does not describe a forest") := by
  have hDescribes := @HasKind.describes 120 _ _ h
  obtain ⟨text, hText, hParse⟩ := hCodec.exists_text hDescribes.plain
  have hRead : (codec.parse? text).bind (ofJson? kind) = whenFinite forest.numbers forest := by
    rw [hParse, Option.bind_some, hDescribes.read_eq]
  refine ⟨text, by rw [toJson, hText], ?_⟩
  by_cases hFinite : forest.numbers.all Float.isFinite = true
  · have hParsed : parse codec kind text = .ok forest := by
      rw [parse, hRead, whenFinite, if_pos hFinite]
    rw [if_pos hFinite]
    exact fromJson_eq_ok_iff.mpr ⟨hValid, hParsed⟩
  · have hRefused : parse codec kind text =
        .error (.malformedJson "the text does not describe a forest") := by
      rw [parse, hRead, whenFinite, if_neg hFinite]
    rw [if_neg hFinite, fromJson, hRefused]
    rfl

/-- What comes from a text is read again as what it is. -/
theorem exists_toJson_of_fromJson (hCodec : codec.Faithful) {source : String}
    (h : fromJson codec kind source = .ok forest) :
    ∃ text, forest.toJson codec = .ok text ∧ fromJson codec kind text = .ok forest := by
  obtain ⟨hValid, hParse⟩ := fromJson_eq_ok_iff.mp h
  have hRead : (codec.parse? source).bind (ofJson? kind) = some forest := by
    unfold parse at hParse
    split at hParse
    · rename_i found hFound
      cases hParse
      exact hFound
    · cases hParse
  obtain ⟨value, hSource, hValue⟩ := Option.bind_eq_some_iff.mp hRead
  have hNumbers := hCodec.refuses_infinity source value hSource
  obtain ⟨hKind, hFinite⟩ := hasKind_of_ofJson? hNumbers hValue
  obtain ⟨text, hText, hAgain⟩ := hKind.exists_toJson hCodec hValid
  exact ⟨text, hText, by rw [hAgain, if_pos hFinite]⟩

/-- With a faithful codec, a valid forest of a kind is printed; it is read back from its text
if all its numbers are finite, and its text is refused otherwise; so it is never read as
another forest.  What is read from a text stays the same through any number of further
rounds. -/
theorem roundTrip (codec : Json.Codec) (hCodec : codec.Faithful) (kind : ForestKind) :
    (∀ forest : Forest, forest.HasKind kind → forest.validate = .ok () →
      ∃ text, forest.toJson codec = .ok text ∧
        ((∀ number ∈ forest.numbers, number.isFinite = true) →
          fromJson codec kind text = .ok forest) ∧
        ((∃ number ∈ forest.numbers, number.isFinite = false) →
          ∃ error, fromJson codec kind text = .error error ∧ error.category = .json)) ∧
      ∀ text forest, fromJson codec kind text = .ok forest →
        ∀ count, rounds codec kind count forest = .ok forest := by
  refine ⟨fun forest hKind hValid => ?_, fun source forest hSource count => ?_⟩
  · obtain ⟨text, hText, hRead⟩ := hKind.exists_toJson hCodec hValid
    refine ⟨text, hText, fun hFinite => ?_, fun hInfinite => ?_⟩
    · rw [hRead, if_pos (List.all_eq_true.mpr hFinite)]
    · have hSome : ¬ forest.numbers.all Float.isFinite = true := by
        obtain ⟨number, hNumber, hInfinite⟩ := hInfinite
        intro hAll
        rw [List.all_eq_true.mp hAll number hNumber] at hInfinite
        cases hInfinite
      rw [hRead, if_neg hSome]
      exact ⟨_, rfl, rfl⟩
  · obtain ⟨text, hText, hRead⟩ := exists_toJson_of_fromJson hCodec hSource
    induction count with
    | zero => rfl
    | succ count ih =>
        have hAgain := except_bind_eq_ok_iff.mpr ⟨forest, hRead, ih⟩
        exact except_bind_eq_ok_iff.mpr ⟨text, hText, hAgain⟩

/-- One tree that compares two features with thresholds. -/
def steps : Forest where
  nodes := #[
    ⟨.threshold 0 0.5, ⟨.constant 1, .leaf⟩, ⟨.constant 0.1, .interior 1⟩, 0⟩,
    ⟨.threshold 1 0, ⟨.constant (-3), .leaf⟩, ⟨.constant 1e300, .leaf⟩, 2⟩]
  roots := [0]
  bias := 0.25

/-- The tree survives three rounds, and with an infinite bias none. -/
theorem roundTrip_steps :
    Json.Codec.standard.Faithful ∧
      steps.HasKind ⟨.threshold, .constant⟩ ∧ steps.validate = .ok () ∧
      (∀ number ∈ steps.numbers, number.isFinite = true) ∧
      rounds .standard ⟨.threshold, .constant⟩ 3 steps = .ok steps ∧
      (steps.addToBias infinity).HasKind ⟨.threshold, .constant⟩ ∧
      (steps.addToBias infinity).validate = .ok () ∧
      ∃ text error, (steps.addToBias infinity).toJson .standard = .ok text ∧
        fromJson .standard ⟨.threshold, .constant⟩ text = .error error ∧
        error.category = .json := by
  have hKind (bias : Float) : HasKind ⟨.threshold, .constant⟩ { steps with bias := bias } := by
    refine ⟨fun node hNode => ?_, by simp [steps, Index.largest]⟩
    simp only [steps, List.mem_cons, List.not_mem_nil, or_false] at hNode
    rcases hNode with rfl | rfl <;> refine ⟨⟨rfl, by decide⟩, fun edge hEdge => ?_, by decide⟩ <;>
      simp only [Interior.edges, List.mem_cons, List.not_mem_nil, or_false] at hEdge <;>
      rcases hEdge with rfl | rfl <;> exact ⟨rfl, by simp [Target.node?, Index.largest]⟩
  have hFinite : ∀ number ∈ steps.numbers, number.isFinite = true := by decide +kernel
  have hInfinite : ∃ number ∈ (steps.addToBias infinity).numbers, number.isFinite = false := by
    decide +kernel
  obtain ⟨hForests, hTexts⟩ :=
    roundTrip .standard Json.Codec.faithful_standard ⟨.threshold, .constant⟩
  obtain ⟨text, -, hRead, -⟩ := hForests steps (hKind steps.bias) rfl
  obtain ⟨other, hOther, -, hRefused⟩ :=
    hForests (steps.addToBias infinity) (hKind (steps.addToBias infinity).bias) rfl
  obtain ⟨error, hError, hCategory⟩ := hRefused hInfinite
  exact ⟨Json.Codec.faithful_standard, hKind steps.bias, rfl, hFinite,
    hTexts _ _ (hRead hFinite) 3, hKind _, rfl, other, error, hOther, hError, hCategory⟩

end Forest

end ForestGraph
