import ForestGraph.Proofs.Gates
import ForestGraph.Proofs.Subtrees

/-!
# Wired edge indicators

The wired indicator of an edge tells whether its node is gated and decides for
the edge.  The invariant of the wiring speaks of all edges below a rank: the
selections that are known for them, and that they are known for all of them.
-/

namespace ForestGraph

open Rebuild

namespace Wiring

/-- A selection of one truth value that tells, for every vector that gives
numbers to the features, whether a gated node decides for an edge. -/
structure Indicates (forest : Forest) (base : List Node) (features : Selection)
    (state : Rebuild) (index : Nat) (decision : Bool) (taken : Selection) : Prop where
  hasType : Selection.HasType state.emitted .boolean taken
  size : taken.length = 1
  reads : ∀ {vector numbers : List Float}, Reads base vector features (numbers.map .real) →
    ∃ truth, Reads state.emitted vector taken [.boolean truth] ∧
      (truth = true ↔ forest.Gated numbers index ∧ forest.Decides numbers index decision)

/-- A selection of the truth value `false`. -/
structure IsNever (base : List Node) (state : Rebuild) (never : Selection) : Prop where
  hasType : Selection.HasType state.emitted .boolean never
  size : never.length = 1
  reads : ∀ {vector : List Float}, Evaluates base vector →
    Reads state.emitted vector never [.boolean false]

/-- The selections that are known once all edges below a rank are recorded. -/
structure Recorded (forest : Forest) (base : List Node) (features : Selection)
    (state : Rebuild) (limit : Nat) (wiring : Wiring) : Prop where
  incoming : ∀ {child : Nat} {taken : Selection}, wiring.incoming.lookup child = some taken →
    ∃ parent decision, forest.LastBelow limit parent decision child ∧
      Indicates forest base features state parent decision taken
  entered : ∀ {parent : Nat} {decision : Bool} {child : Nat},
    Forest.edgeRank parent decision < limit → forest.EdgeTo parent decision child →
    ∃ taken, wiring.incoming.lookup child = some taken
  edges : ∀ {number : Nat} {taken : Selection}, wiring.edges.lookup number = some taken →
    ∃ index decision, forest.Numbers index decision number ∧
      Indicates forest base features state index decision taken
  numbered : ∀ {index : Nat} {decision : Bool} {number : Nat},
    Forest.edgeRank index decision < limit → forest.Numbers index decision number →
    ∃ taken, wiring.edges.lookup number = some taken
  never : ∀ {never : Selection}, wiring.never = some never → IsNever base state never

variable {forest : Forest} {base : List Node} {features : Selection} {before after : Rebuild}
  {wiring next : Wiring}

theorem Indicates.grow {index : Nat} {decision : Bool} {taken : Selection}
    (h : Indicates forest base features before index decision taken)
    (hGrows : Grows before after) :
    Indicates forest base features after index decision taken := by
  refine ⟨hGrows.nodes.hasType h.hasType, h.size, fun hFeatures => ?_⟩
  obtain ⟨truth, hRead, hTruth⟩ := h.reads hFeatures
  exact ⟨truth, hGrows.nodes.reads hRead, hTruth⟩

theorem IsNever.grow {never : Selection} (h : IsNever base before never)
    (hGrows : Grows before after) : IsNever base after never :=
  ⟨hGrows.nodes.hasType h.hasType, h.size, fun hBase => hGrows.nodes.reads (h.reads hBase)⟩

theorem Recorded.grow {limit : Nat} (h : Recorded forest base features before limit wiring)
    (hGrows : Grows before after) : Recorded forest base features after limit wiring := by
  refine ⟨fun hTaken => ?_, h.entered, fun hTaken => ?_, h.numbered,
    fun hNever => (h.never hNever).grow hGrows⟩
  · obtain ⟨parent, decision, hLast, hIndicates⟩ := h.incoming hTaken
    exact ⟨parent, decision, hLast, hIndicates.grow hGrows⟩
  · obtain ⟨index, decision, hNumbers, hIndicates⟩ := h.edges hTaken
    exact ⟨index, decision, hNumbers, hIndicates.grow hGrows⟩

theorem recorded_start : Recorded forest base features before 0 start := by
  refine ⟨fun h => ?_, fun h => ?_, fun h => ?_, fun h => ?_, fun h => ?_⟩
  · cases h
  · omega
  · cases h
  · omega
  · cases h

/-! ## Recording an edge -/

/-- The selections that are known after one more edge. -/
def withEdge (wiring : Wiring) (number : Nat) (target : Target) (taken : Selection) : Wiring :=
  { wiring with
    incoming := match target with
      | .leaf => wiring.incoming
      | .interior child => (child, taken) :: wiring.incoming
    edges := (number, taken) :: wiring.edges }

theorem record_eq_ok_iff {number : Nat} {edge : Edge} {taken : Selection} :
    record forest wiring number edge taken = .ok next ↔
      number < forest.edgeCount ∧
        (∀ child, edge.target = .interior child → child < forest.nodeCount) ∧
        next = wiring.withEdge number edge.target taken := by
  unfold record withEdge
  cases hTarget : edge.target with
  | leaf =>
      by_cases hNumber : number < forest.edgeCount <;>
        simp [hNumber, bind, Except.bind, pure, Except.pure, throw, throwThe,
          MonadExceptOf.throw, eq_comm]
  | interior child =>
      by_cases hChild : child < forest.nodeCount <;>
        by_cases hNumber : number < forest.edgeCount <;>
        simp [hNumber, hChild, bind, Except.bind, pure, Except.pure, throw, throwThe,
          MonadExceptOf.throw, eq_comm]

theorem lookup_cons_eq_some_iff {entries : List (Nat × Selection)} {key other : Nat}
    {value result : Selection} :
    ((other, value) :: entries).lookup key = some result ↔
      (key = other ∧ result = value) ∨ (key ≠ other ∧ entries.lookup key = some result) := by
  rw [List.lookup_cons]
  by_cases hKey : key = other
  · simp [hKey, eq_comm]
  · have hBeq : (key == other) = false := by simpa using hKey
    simp [hKey, hBeq]

/-- After an edge of a node is recorded, the node it leads to has its indicator. -/
theorem lookup_incoming_withEdge_iff {index : Nat} {node : Interior} {taken selection : Selection}
    (hNode : forest.nodes[index]? = some node) {decision : Bool} {number child : Nat} :
    (wiring.withEdge number (node.edge decision).target taken).incoming.lookup child =
        some selection ↔
      (forest.EdgeTo index decision child ∧ selection = taken) ∨
        (¬ forest.EdgeTo index decision child ∧
          wiring.incoming.lookup child = some selection) := by
  have hEdge : forest.EdgeTo index decision child ↔
      (node.edge decision).target = .interior child := by
    constructor
    · rintro ⟨same, hSame, hTarget⟩
      rw [hNode] at hSame
      cases hSame
      exact hTarget
    · exact fun hTarget => ⟨node, hNode, hTarget⟩
  rw [hEdge]
  unfold Wiring.withEdge
  cases hTarget : (node.edge decision).target with
  | leaf => simp
  | interior other =>
      simp only [lookup_cons_eq_some_iff, Target.interior.injEq, ne_eq]
      rw [@eq_comm Nat child other]

/-- Recording the next edge keeps the invariant. -/
theorem Recorded.withEdge {index : Nat} {node : Interior} {taken : Selection}
    (hNode : forest.nodes[index]? = some node) (decision : Bool)
    (h : Recorded forest base features before (Forest.edgeRank index decision) wiring)
    (hTaken : Indicates forest base features before index decision taken) :
    Recorded forest base features before (Forest.edgeRank index decision + 1)
      (wiring.withEdge (node.firstEdge + decision.toNat) (node.edge decision).target taken) := by
  have hNumber : forest.Numbers index decision (node.firstEdge + decision.toNat) :=
    ⟨node, hNode, rfl⟩
  refine ⟨fun {child selection} hLookup => ?_, fun {parent choice child} hRank hEdge => ?_,
    fun {number selection} hLookup => ?_, fun {other choice number} hRank hOther => ?_,
    fun hNever => h.never hNever⟩
  · rcases (lookup_incoming_withEdge_iff hNode).mp hLookup with ⟨hEdge, rfl⟩ | ⟨hNone, hBefore⟩
    · exact ⟨index, decision, ⟨Nat.lt_succ_self _, hEdge, fun hRank _ => Nat.le_of_lt_succ hRank⟩,
        hTaken⟩
    -- An edge that was the last one so far stays so, as the new one leads elsewhere.
    · obtain ⟨parent, choice, hLast, hIndicates⟩ := h.incoming hBefore
      refine ⟨parent, choice, ⟨Nat.lt_succ_of_lt hLast.below, hLast.edge,
        fun {other turn} hRank hOther => ?_⟩, hIndicates⟩
      rcases Nat.lt_succ_iff_lt_or_eq.mp hRank with hLess | hSame
      · exact hLast.last hLess hOther
      · -- The new edge does not lead to the child.
        obtain ⟨rfl, rfl⟩ := Forest.edgeRank_inj hSame
        exact absurd hOther hNone
  · by_cases hNew : forest.EdgeTo index decision child
    · exact ⟨taken, (lookup_incoming_withEdge_iff hNode).mpr (.inl ⟨hNew, rfl⟩)⟩
    · rcases Nat.lt_succ_iff_lt_or_eq.mp hRank with hLess | hSame
      · obtain ⟨selection, hLookup⟩ := h.entered hLess hEdge
        exact ⟨selection, (lookup_incoming_withEdge_iff hNode).mpr (.inr ⟨hNew, hLookup⟩)⟩
      · obtain ⟨rfl, rfl⟩ := Forest.edgeRank_inj hSame
        exact absurd hEdge hNew
  · rcases lookup_cons_eq_some_iff.mp hLookup with ⟨rfl, rfl⟩ | ⟨_, hBefore⟩
    · exact ⟨index, decision, hNumber, hTaken⟩
    · exact h.edges hBefore
  · by_cases hNew : number = node.firstEdge + decision.toNat
    · exact ⟨taken, lookup_cons_eq_some_iff.mpr (.inl ⟨hNew, rfl⟩)⟩
    · rcases Nat.lt_succ_iff_lt_or_eq.mp hRank with hLess | hSame
      · obtain ⟨selection, hLookup⟩ := h.numbered hLess hOther
        exact ⟨selection, lookup_cons_eq_some_iff.mpr (.inr ⟨hNew, hLookup⟩)⟩
      · obtain ⟨rfl, rfl⟩ := Forest.edgeRank_inj hSame
        exact absurd (hNumber.unique hOther) hNew

/-! ## Wiring a node -/

/-- The constant `false` is there after it has been asked for. -/
theorem Recorded.of_emitNever {limit : Nat} {never : Selection}
    (h : Recorded forest base features before limit wiring) (hBase : Extends base before.emitted)
    (hNever : Succeeds (emitNever wiring) before (next, never) after) :
    Grows before after ∧ Recorded forest base features after limit next ∧
      IsNever base after never := by
  unfold emitNever at hNever
  cases hCase : wiring.never with
  | some known =>
      rw [hCase] at hNever
      obtain ⟨hPair, rfl⟩ := succeeds_pure_iff.mp hNever
      cases hPair
      exact ⟨.refl _, h, h.never hCase⟩
  | none =>
      rw [hCase] at hNever
      obtain ⟨fresh, state, hEmit, hRest⟩ := succeeds_bind_iff.mp hNever
      obtain ⟨hPair, rfl⟩ := succeeds_pure_iff.mp hRest
      cases hPair
      obtain ⟨hEmits, hReads⟩ := hEmit.booleans
      have hIsNever : IsNever base after never :=
        ⟨hEmits.hasType, hEmits.length, fun hEval => hReads (hBase.evaluates hEval)⟩
      have hGrown := h.grow hEmits.grows
      refine ⟨hEmits.grows, ⟨hGrown.incoming, hGrown.entered, hGrown.edges, hGrown.numbered, ?_⟩,
        hIsNever⟩
      intro other hOther
      cases hOther
      exact hIsNever

theorem exists_emitNever (wiring : Wiring) (before : Rebuild) :
    ∃ next never after, Succeeds (emitNever wiring) before (next, never) after := by
  unfold emitNever
  cases wiring.never with
  | some never => exact ⟨wiring, never, before, succeeds_pure_iff.mpr ⟨rfl, rfl⟩⟩
  | none =>
      obtain ⟨never, after, hEmit⟩ := exists_emit_constant before (.booleans [false])
      exact ⟨_, never, after, Succeeds.bind hEmit (succeeds_pure_iff.mpr ⟨rfl, rfl⟩)⟩

variable {index : Nat} {subtree : Subtree} {onFalse onTrue : Selection}

/-- The decision at a root indicates its second edge. -/
theorem indicates_decision (hRoot : index ∈ forest.roots)
    (hSubtree : Subtree.Denotes forest base features before index subtree) :
    Indicates forest base features before index true subtree.decision := by
  refine ⟨hSubtree.decisionType, hSubtree.decisionSize, fun {vector numbers} hFeatures => ?_⟩
  obtain ⟨_, decision, _, _, hDecides, hRead⟩ := hSubtree.reads hFeatures
  refine ⟨decision, hRead, ?_⟩
  constructor
  · intro hTruth
    exact ⟨.root hRoot, hTruth ▸ hDecides⟩
  · rintro ⟨_, hOther⟩
    exact (hDecides.unique hOther).symm

/-- The negated decision at a root indicates its first edge. -/
theorem indicates_negated (hRoot : index ∈ forest.roots)
    (hSubtree : Subtree.Denotes forest base features before index subtree) {negated : Selection}
    (hNot : Succeeds (emit (.not subtree.decision)) before negated after) :
    Indicates forest base features after index false negated := by
  obtain ⟨hEmits, hReads⟩ := hNot.not
  refine ⟨hEmits.hasType, hEmits.length.trans hSubtree.decisionSize,
    fun {vector numbers} hFeatures => ?_⟩
  obtain ⟨_, decision, _, _, hDecides, hRead⟩ := hSubtree.reads hFeatures
  refine ⟨!decision, @hReads vector [decision] hRead, ?_⟩
  constructor
  · intro hTruth
    have hFalse : decision = false := by simpa using hTruth
    exact ⟨.root hRoot, hFalse ▸ hDecides⟩
  · rintro ⟨_, hOther⟩
    rw [← hDecides.unique hOther]
    rfl

/-- What the multiplexers of a node that is no root read: whether the node is gated,
the truth value `false`, and the decision at the node. -/
def ReadsGate (forest : Forest) (base : List Node) (features : Selection) (state : Rebuild)
    (index : Nat) (reached never decision : Selection) : Prop :=
  ∀ {vector numbers : List Float}, Reads base vector features (numbers.map .real) →
    ∃ gate truth, (gate = true ↔ forest.Gated numbers index) ∧
      forest.Decides numbers index truth ∧
      Reads state.emitted vector reached [.boolean gate] ∧
      Reads state.emitted vector never [.boolean false] ∧
      Reads state.emitted vector decision [.boolean truth]

variable {reached never decision taken : Selection}

theorem ReadsGate.grow (h : ReadsGate forest base features before index reached never decision)
    (hGrows : Grows before after) :
    ReadsGate forest base features after index reached never decision := by
  intro vector numbers hFeatures
  obtain ⟨gate, truth, hGate, hDecides, hReached, hNever, hDecision⟩ := h hFeatures
  exact ⟨gate, truth, hGate, hDecides, hGrows.nodes.reads hReached, hGrows.nodes.reads hNever,
    hGrows.nodes.reads hDecision⟩

/-- The first multiplexer lets the gate through if the node decides for its first edge. -/
theorem ReadsGate.indicates_false (hSize : reached.length = 1)
    (h : ReadsGate forest base features before index reached never decision)
    (hEmit : Succeeds (emit (.multiplexer (reached ++ never) decision)) before taken after) :
    Indicates forest base features after index false taken := by
  obtain ⟨hEmits, hReads⟩ := hEmit.multiplexer hSize
  refine ⟨hEmits.hasType, hEmits.length, fun {vector numbers} hFeatures => ?_⟩
  obtain ⟨gate, truth, hGate, hDecides, hReached, hNever, hDecision⟩ := h hFeatures
  cases truth with
  | false => exact ⟨gate, hReads hDecision hReached, by simpa [hDecides] using hGate⟩
  | true =>
      have hNot : ¬ forest.Decides numbers index false := fun hFalse =>
        absurd (hDecides.unique hFalse) (by decide)
      exact ⟨false, hReads hDecision hNever, by simp [hNot]⟩

/-- The second one does so for the second edge. -/
theorem ReadsGate.indicates_true (hSize : never.length = 1)
    (h : ReadsGate forest base features before index reached never decision)
    (hEmit : Succeeds (emit (.multiplexer (never ++ reached) decision)) before taken after) :
    Indicates forest base features after index true taken := by
  obtain ⟨hEmits, hReads⟩ := hEmit.multiplexer hSize
  refine ⟨hEmits.hasType, hEmits.length, fun {vector numbers} hFeatures => ?_⟩
  obtain ⟨gate, truth, hGate, hDecides, hReached, hNever, hDecision⟩ := h hFeatures
  cases truth with
  | true => exact ⟨gate, hReads hDecision hReached, by simpa [hDecides] using hGate⟩
  | false =>
      have hNot : ¬ forest.Decides numbers index true := fun hTrue =>
        absurd (hDecides.unique hTrue) (by decide)
      exact ⟨false, hReads hDecision hNever, by simp [hNot]⟩

/-- The indicator of the last edge below a node reads as its gate. -/
theorem Indicates.readsGate (hRoot : index ∉ forest.roots) {parent : Nat} {choice : Bool}
    (hLast : forest.LastEdgeTo parent choice index)
    (hReached : Indicates forest base features before parent choice reached)
    (hNever : IsNever base before never)
    (hSubtree : Subtree.Denotes forest base features before index subtree) :
    ReadsGate forest base features before index reached never subtree.decision := by
  intro vector numbers hFeatures
  obtain ⟨gate, hGateRead, hGate⟩ := hReached.reads hFeatures
  obtain ⟨_, truth, _, _, hDecides, hDecision⟩ := hSubtree.reads hFeatures
  rw [← Forest.gated_of_lastEdgeTo hRoot hLast] at hGate
  exact ⟨gate, truth, hGate, hDecides, hGateRead, hNever.reads hFeatures.evaluates, hDecision⟩

/-- The two edges of a node are wired from its decision and from the last edge
that leads to it. -/
theorem Recorded.of_emitNode
    (h : Recorded forest base features before (2 * index) wiring)
    (hDescends : forest.Descends) (hBase : Extends base before.emitted)
    (hSubtree : Subtree.Denotes forest base features before index subtree)
    (hNode : Succeeds (emitNode forest wiring index subtree.decision) before
      (next, onFalse, onTrue) after) :
    Grows before after ∧ Recorded forest base features after (2 * index) next ∧
      Indicates forest base features after index false onFalse ∧
      Indicates forest base features after index true onTrue ∧
      (index ∈ forest.roots ∨ ∃ parent decision, forest.EdgeTo parent decision index) := by
  unfold emitNode at hNode
  by_cases hRoot : index ∈ forest.roots
  · rw [if_pos (Forest.isRoot_iff.mpr hRoot)] at hNode
    obtain ⟨negated, state, hNot, hRest⟩ := succeeds_bind_iff.mp hNode
    obtain ⟨hTriple, rfl⟩ := succeeds_pure_iff.mp hRest
    cases hTriple
    have hGrows := hNot.not.1.grows
    exact ⟨hGrows, h.grow hGrows, indicates_negated hRoot hSubtree hNot,
      (indicates_decision hRoot hSubtree).grow hGrows, .inl hRoot⟩
  · have hIsRoot : ¬ forest.isRoot index = true := fun hIs => hRoot (Forest.isRoot_iff.mp hIs)
    rw [if_neg hIsRoot] at hNode
    cases hLookup : wiring.incoming.lookup index with
    | none =>
        rw [hLookup] at hNode
        exact absurd hNode not_succeeds_throw
    | some reached =>
        rw [hLookup] at hNode
        obtain ⟨⟨middle, never⟩, state, hNever, hRest⟩ := succeeds_bind_iff.mp hNode
        obtain ⟨first, state1, hFirst, hRest⟩ := succeeds_bind_iff.mp hRest
        obtain ⟨second, state2, hSecond, hRest⟩ := succeeds_bind_iff.mp hRest
        obtain ⟨hTriple, rfl⟩ := succeeds_pure_iff.mp hRest
        cases hTriple
        obtain ⟨parent, choice, hLast, hReached⟩ := h.incoming hLookup
        obtain ⟨hGrows, hRecorded, hIsNever⟩ := h.of_emitNever hBase hNever
        have hGrown := hReached.grow hGrows
        -- The edges to the node have been recorded, so the last one below is the last of all.
        have hGate : ReadsGate forest base features state index reached never subtree.decision :=
          hGrown.readsGate hRoot (hLast.lastEdgeTo hDescends) hIsNever (hSubtree.grow hGrows)
        have hFirstGrows := (hFirst.multiplexer hGrown.size).1.grows
        have hLater : ReadsGate forest base features state1 index reached never subtree.decision :=
          hGate.grow hFirstGrows
        have hSecondGrows := (hSecond.multiplexer hIsNever.size).1.grows
        have hBoth := hFirstGrows.trans hSecondGrows
        exact ⟨hGrows.trans hBoth, hRecorded.grow hBoth,
          (hGate.indicates_false hGrown.size hFirst).grow hSecondGrows,
          hLater.indicates_true hIsNever.size hSecond,
          .inr ⟨parent, choice, hLast.edge⟩⟩

/-- The edges of a node can be wired if the node is a root or an edge before leads
to it. -/
theorem Recorded.exists_emitNode
    (h : Recorded forest base features before (2 * index) wiring)
    (hBase : Extends base before.emitted)
    (hSubtree : Subtree.Denotes forest base features before index subtree)
    (hEntered : index ∈ forest.roots ∨ ∃ parent decision, parent < index ∧
      forest.EdgeTo parent decision index) :
    ∃ next onFalse onTrue after, Succeeds (emitNode forest wiring index subtree.decision) before
      (next, onFalse, onTrue) after := by
  unfold emitNode
  by_cases hRoot : index ∈ forest.roots
  · rw [if_pos (Forest.isRoot_iff.mpr hRoot)]
    obtain ⟨negated, state, hNot⟩ := exists_emit_not hSubtree.decisionType
    exact ⟨_, _, _, _, hNot.bind (succeeds_pure_iff.mpr ⟨rfl, rfl⟩)⟩
  · have hIsRoot : ¬ forest.isRoot index = true := fun hIs => hRoot (Forest.isRoot_iff.mp hIs)
    rw [if_neg hIsRoot]
    obtain ⟨parent, choice, hParent, hEdge⟩ := hEntered.resolve_left hRoot
    obtain ⟨reached, hLookup⟩ := h.entered (Forest.edgeRank_lt_iff.mpr hParent) hEdge
    rw [hLookup]
    obtain ⟨_, _, _, hReached⟩ := h.incoming hLookup
    obtain ⟨middle, never, state, hNever⟩ := exists_emitNever wiring before
    obtain ⟨hGrows, _, hIsNever⟩ := h.of_emitNever hBase hNever
    have hReachedType := hGrows.nodes.hasType hReached.hasType
    have hDecisionType := hGrows.nodes.hasType hSubtree.decisionType
    obtain ⟨first, state1, hFirst⟩ := exists_emit_multiplexer hReachedType hReached.size
      hIsNever.hasType hIsNever.size hDecisionType hSubtree.decisionSize
    have hLater := (hFirst.multiplexer hReached.size).1.grows.nodes
    obtain ⟨second, state2, hSecond⟩ := exists_emit_multiplexer (hLater.hasType hIsNever.hasType)
      hIsNever.size (hLater.hasType hReachedType) hReached.size (hLater.hasType hDecisionType)
      hSubtree.decisionSize
    exact ⟨_, _, _, _, hNever.bind (hFirst.bind (hSecond.bind
      (succeeds_pure_iff.mpr ⟨rfl, rfl⟩)))⟩

/-! ## Wiring all nodes -/

/-- Recording both edges of a node moves the invariant on to the next node. -/
theorem Recorded.of_records {node : Interior} {middle : Wiring}
    (hNode : forest.nodes[index]? = some node)
    (h : Recorded forest base features before (2 * index) wiring)
    (hFalse : Indicates forest base features before index false onFalse)
    (hTrue : Indicates forest base features before index true onTrue)
    (hFirst : record forest wiring node.firstEdge node.onFalse onFalse = .ok middle)
    (hSecond : record forest middle (node.firstEdge + 1) node.onTrue onTrue = .ok next) :
    Recorded forest base features before (2 * (index + 1)) next := by
  obtain ⟨_, _, rfl⟩ := record_eq_ok_iff.mp hFirst
  obtain ⟨_, _, rfl⟩ := record_eq_ok_iff.mp hSecond
  have hMiddle := Recorded.withEdge hNode false h hFalse
  exact Recorded.withEdge hNode true hMiddle hTrue

/-- The nodes that wait to be wired, with their subtrees. -/
def Waiting (forest : Forest) (base : List Node) (features : Selection) (state : Rebuild)
    (index : Nat) (behind : List (Interior × Subtree)) : Prop :=
  ∀ offset node subtree, behind[offset]? = some (node, subtree) →
    forest.nodes[index + offset]? = some node ∧
      Subtree.Denotes forest base features state (index + offset) subtree

theorem Waiting.tail {node : Interior} {behind : List (Interior × Subtree)}
    (h : Waiting forest base features before index ((node, subtree) :: behind))
    (hGrows : Grows before after) :
    Waiting forest base features after (index + 1) behind := by
  intro offset other otherSubtree hOther
  obtain ⟨hNode, hDenotes⟩ := h (offset + 1) other otherSubtree (by simpa using hOther)
  rw [show index + (offset + 1) = index + 1 + offset by omega] at hNode hDenotes
  exact ⟨hNode, hDenotes.grow hGrows⟩

/-- The invariant holds from node to node, and every wired node is a root or the
end of an edge. -/
theorem Recorded.of_emitAll {behind : List (Interior × Subtree)} {result : Wiring}
    (hWaiting : Waiting forest base features before index behind)
    (hDescends : forest.Descends) (hBase : Extends base before.emitted)
    (h : Recorded forest base features before (2 * index) wiring)
    (hEmit : Succeeds (emitAll forest index behind wiring) before result after) :
    Grows before after ∧
      Recorded forest base features after (2 * (index + behind.length)) result ∧
      ∀ offset < behind.length, index + offset ∈ forest.roots ∨
        ∃ parent decision, forest.EdgeTo parent decision (index + offset) := by
  induction behind generalizing index wiring before with
  | nil =>
      obtain ⟨rfl, rfl⟩ := succeeds_pure_iff.mp hEmit
      exact ⟨.refl _, h, by simp⟩
  | cons pair behind ih =>
      obtain ⟨node, subtree⟩ := pair
      obtain ⟨hNode, hSubtree⟩ := hWaiting 0 node subtree rfl
      unfold emitAll at hEmit
      obtain ⟨⟨next, onFalse, onTrue⟩, state, hWired, hRest⟩ := succeeds_bind_iff.mp hEmit
      obtain ⟨hGrows, hNext, hFalse, hTrue, hEntered⟩ :=
        h.of_emitNode hDescends hBase hSubtree hWired
      cases hKnown : (do
          let wiring ← record forest next node.firstEdge node.onFalse onFalse
          record forest wiring (node.firstEdge + 1) node.onTrue onTrue) with
      | error error =>
          simp only [hKnown] at hRest
          exact absurd hRest not_succeeds_throw
      | ok last =>
          simp only [hKnown] at hRest
          obtain ⟨middle, hFirst, hSecond⟩ := except_bind_eq_ok_iff.mp hKnown
          have hLast := hNext.of_records hNode hFalse hTrue hFirst hSecond
          obtain ⟨hAfter, hResult, hLater⟩ :=
            ih (hWaiting.tail hGrows) (hBase.trans hGrows.nodes) hLast hRest
          refine ⟨hGrows.trans hAfter, ?_, fun offset hOffset => ?_⟩
          · rw [List.length_cons, show index + (behind.length + 1) = index + 1 + behind.length by
              omega]
            exact hResult
          · cases offset with
            | zero => exact hEntered
            | succ offset =>
                have hNextEntered := hLater offset (by simpa using hOffset)
                rwa [show index + 1 + offset = index + (offset + 1) by omega] at hNextEntered

/-- All nodes of an expandable forest can be wired. -/
theorem Recorded.exists_emitAll {behind : List (Interior × Subtree)}
    (hWaiting : Waiting forest base features before index behind)
    (hForest : forest.Expandable) (hBase : Extends base before.emitted)
    (h : Recorded forest base features before (2 * index) wiring) :
    ∃ result after, Succeeds (emitAll forest index behind wiring) before result after := by
  induction behind generalizing index wiring before with
  | nil => exact ⟨wiring, before, succeeds_pure_iff.mpr ⟨rfl, rfl⟩⟩
  | cons pair behind ih =>
      obtain ⟨node, subtree⟩ := pair
      obtain ⟨hNode, hSubtree⟩ := hWaiting 0 node subtree rfl
      have hIndex : index < forest.nodeCount := (Array.getElem?_eq_some_iff.mp hNode).1
      have hEntered : index ∈ forest.roots ∨ ∃ parent decision, parent < index ∧
          forest.EdgeTo parent decision index := by
        rcases hForest.entered index hIndex with hRoot | ⟨parent, decision, hEdge⟩
        · exact .inl hRoot
        · exact .inr ⟨parent, decision, (hForest.descends hEdge).1, hEdge⟩
      obtain ⟨next, onFalse, onTrue, state, hWired⟩ := h.exists_emitNode hBase hSubtree hEntered
      obtain ⟨hGrows, hNext, hFalse, hTrue, _⟩ :=
        h.of_emitNode hForest.descends hBase hSubtree hWired
      have hFirst : record forest next node.firstEdge node.onFalse onFalse =
          .ok (next.withEdge node.firstEdge node.onFalse.target onFalse) :=
        record_eq_ok_iff.mpr ⟨hForest.number_lt (Forest.numbers_of_node hNode false),
          fun child hChild => (hForest.descends (Forest.edgeTo_of_node hNode false hChild)).2, rfl⟩
      have hSecond : record forest (next.withEdge node.firstEdge node.onFalse.target onFalse)
          (node.firstEdge + 1) node.onTrue onTrue = .ok _ :=
        record_eq_ok_iff.mpr ⟨hForest.number_lt (Forest.numbers_of_node hNode true),
          fun child hChild => (hForest.descends (Forest.edgeTo_of_node hNode true hChild)).2, rfl⟩
      have hLast := hNext.of_records hNode hFalse hTrue hFirst hSecond
      obtain ⟨result, after, hRest⟩ :=
        ih (hWaiting.tail hGrows) (hBase.trans hGrows.nodes) hLast
      refine ⟨result, after, succeeds_bind_iff.mpr ⟨_, _, hWired, ?_⟩⟩
      have hKnown : (do
          let wiring ← record forest next node.firstEdge node.onFalse onFalse
          record forest wiring (node.firstEdge + 1) node.onTrue onTrue) = .ok _ :=
        except_bind_eq_ok_iff.mpr ⟨_, hFirst, hSecond⟩
      simp only [hKnown]
      exact hRest

/-! ## Collecting the indicators -/

theorem collect_eq_ok_iff {edgeCount : Nat} {edges : Selection} :
    wiring.collect edgeCount = .ok edges ↔
      ∃ parts, List.Forall₂ (fun number taken => wiring.edges.lookup number = some taken)
        (List.range edgeCount) parts ∧ edges = parts.flatten := by
  simp only [collect, except_bind_eq_ok_iff, mapM_eq_ok_iff, except_pure_eq_ok_iff]
  refine exists_congr fun parts => and_congr ?_ eq_comm
  constructor
  · refine fun h => h.imp fun number taken hTaken => ?_
    cases hLookup : wiring.edges.lookup number with
    | none => simp [hLookup] at hTaken
    | some found => simpa [hLookup] using hTaken
  · refine fun h => h.imp fun number taken hTaken => ?_
    rw [hTaken]

/-- All edge indicators of a forest, in the order of the numbers of the edges. -/
structure AllIndicate (forest : Forest) (base : List Node) (features : Selection)
    (state : Rebuild) (edges : Selection) : Prop where
  hasType : Selection.HasType state.emitted .boolean edges
  size : edges.length = forest.edgeCount
  reads : ∀ {vector numbers : List Float}, Reads base vector features (numbers.map .real) →
    ∃ flags : List Bool, Reads state.emitted vector edges (flags.map .boolean) ∧
      forest.GateFlags numbers flags

/-- What is collected indicates all edges, and all numbers are those of edges. -/
theorem Recorded.of_collect {limit : Nat} {edges : Selection}
    (h : Recorded forest base features before limit wiring)
    (hBase : Extends base before.emitted)
    (hCollect : wiring.collect forest.edgeCount = .ok edges) :
    AllIndicate forest base features before edges ∧
      ∀ number < forest.edgeCount, ∃ index decision, forest.Numbers index decision number := by
  obtain ⟨parts, hParts, rfl⟩ := collect_eq_ok_iff.mp hCollect
  have hOwners : List.Forall₂ (fun number taken => ∃ index decision,
      forest.Numbers index decision number ∧
      Indicates forest base features before index decision taken)
      (List.range forest.edgeCount) parts := hParts.imp fun _ _ hLookup => h.edges hLookup
  have hPart : ∀ part ∈ parts, Selection.HasType before.emitted .boolean part ∧
      part.length = 1 := by
    intro part hMem
    obtain ⟨position, hPosition⟩ := List.mem_iff_getElem?.mp hMem
    obtain ⟨_, _, _, _, _, hIndicates⟩ := forall₂_getElem?_right hOwners hPosition
    exact ⟨hIndicates.hasType, hIndicates.size⟩
  refine ⟨⟨Selection.hasType_flatten fun part hMem => (hPart part hMem).1, ?_,
    fun {vector numbers} hFeatures => ?_⟩, fun number hNumber => ?_⟩
  · have hLength := hParts.length_eq
    rw [List.length_range] at hLength
    rw [Selection.length_flatten_of_singles fun part hMem => (hPart part hMem).2, hLength]
  · have hTruths : List.Forall₂ (fun number part => ∃ truth,
        (∃ index decision, forest.Numbers index decision number ∧
          (truth = true ↔ forest.Gated numbers index ∧ forest.Decides numbers index decision)) ∧
        Reads before.emitted vector part [.boolean truth])
        (List.range forest.edgeCount) parts := by
      refine hOwners.imp fun number part hOwner => ?_
      obtain ⟨index, decision, hNumbers, hIndicates⟩ := hOwner
      obtain ⟨truth, hRead, hTruth⟩ := hIndicates.reads hFeatures
      exact ⟨truth, ⟨index, decision, hNumbers, hTruth⟩, hRead⟩
    obtain ⟨flags, hFlags, hReads⟩ := Reads.flatten Value.boolean
      (hBase.evaluates hFeatures.evaluates) hTruths
    exact ⟨flags, hReads, hFlags⟩
  -- Every number has been looked up, so every number has an owner.
  · obtain ⟨part, _, index, decision, hNumbers, _⟩ :=
      forall₂_getElem?_left hOwners (List.getElem?_range hNumber)
    exact ⟨index, decision, hNumbers⟩

/-- The indicators can be collected if every number is that of a recorded edge. -/
theorem Recorded.exists_collect
    (h : Recorded forest base features before (2 * forest.nodeCount) wiring)
    (hNumbered : ∀ number < forest.edgeCount, ∃ index decision,
      forest.Numbers index decision number) :
    ∃ edges, wiring.collect forest.edgeCount = .ok edges := by
  have hLookup : ∀ number ∈ List.range forest.edgeCount, ∃ taken,
      wiring.edges.lookup number = some taken := by
    intro number hNumber
    obtain ⟨index, decision, hNumbers⟩ := hNumbered number (List.mem_range.mp hNumber)
    exact h.numbered (Forest.edgeRank_lt_iff.mpr hNumbers.lt_nodeCount) hNumbers
  obtain ⟨parts, hParts⟩ := exists_forall₂ hLookup
  exact ⟨parts.flatten, collect_eq_ok_iff.mpr ⟨parts, hParts, rfl⟩⟩

end Wiring

end ForestGraph
