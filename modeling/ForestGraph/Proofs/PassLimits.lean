import ForestGraph.Proofs.WholeCopies

/-!
# The limit on the passes

The limit on the passes is read by the loop around the passes only, so one pass makes the
same graph under every limit.  The first pass leaves no forest, and a pass over a graph
without forests makes that graph again.  Hence an expansion has reached its fixed point
after its first pass, whatever the limit.
-/

namespace ForestGraph

open Rebuild

namespace Rebuild

/-- The state with another limit on the passes. -/
def withLimit (limit : Nat) (state : Rebuild) : Rebuild :=
  { state with options := { state.options with maxPasses := limit } }

/-- A step that, where it succeeds, does so in the same way under every limit. -/
def LimitFree {α : Type} (step : RebuildM α) : Prop :=
  ∀ ⦃before after : Rebuild⦄ ⦃value : α⦄ (limit : Nat), Succeeds step before value after →
    Succeeds step (before.withLimit limit) value (after.withLimit limit)

variable {α β : Type}

/-! ## Sequences -/

theorem limitFree_pure (value : α) : LimitFree (pure value) := by
  intro before after result limit h
  obtain ⟨rfl, rfl⟩ := succeeds_pure_iff.mp h
  exact succeeds_pure_iff.mpr ⟨rfl, rfl⟩

theorem limitFree_throw (error : Error) : LimitFree (throw error : RebuildM α) :=
  fun _ _ _ _ h => absurd h not_succeeds_throw

theorem LimitFree.bind {step : RebuildM α} {rest : α → RebuildM β} (h : LimitFree step)
    (hRest : ∀ value, LimitFree (rest value)) : LimitFree (step >>= rest) := by
  intro before after result limit hRun
  obtain ⟨value, middle, hStep, hLater⟩ := succeeds_bind_iff.mp hRun
  exact (h limit hStep).bind (hRest value limit hLater)

/-- The state may be read, as long as what follows does not depend on the limit in it. -/
theorem limitFree_get_bind {rest : Rebuild → RebuildM α}
    (hSame : ∀ limit state, rest (withLimit limit state) = rest state)
    (hRest : ∀ state, LimitFree (rest state)) : LimitFree (get >>= rest) := by
  intro before after result limit hRun
  obtain ⟨state, middle, hGet, hLater⟩ := succeeds_bind_iff.mp hRun
  obtain ⟨rfl, rfl⟩ := succeeds_get_iff.mp hGet
  refine Succeeds.bind (succeeds_get_iff.mpr ⟨rfl, rfl⟩) ?_
  rw [hSame]
  exact hRest _ limit hLater

theorem limitFree_forM {step : α → RebuildM Unit} (entries : List α)
    (h : ∀ entry, LimitFree (step entry)) : LimitFree (entries.forM step) := by
  induction entries with
  | nil => exact limitFree_pure ()
  | cons entry later ih => exact (h entry).bind fun _ => ih

/-- A result that is known or a failure. -/
theorem limitFree_part (selection : Except Error Selection) : LimitFree (part selection) := by
  cases selection with
  | ok selection => exact limitFree_pure selection
  | error error => exact limitFree_throw error

/-! ## Primitive steps -/

theorem limitFree_add (node : Node) : LimitFree (add node) := by
  intro before after index limit h
  obtain ⟨hTyped, rfl, rfl⟩ := succeeds_add_iff.mp h
  exact succeeds_add_iff.mpr ⟨hTyped, rfl, rfl⟩

theorem limitFree_elements (output : OutputRef) : LimitFree (elements output) :=
  limitFree_get_bind (fun _ _ => rfl) fun state => limitFree_part (state.graph.elements output)

theorem limitFree_emit (node : Node) : LimitFree (emit node) :=
  (limitFree_add node).bind fun index => limitFree_elements ⟨index, 0⟩

theorem limitFree_link (old : OutputRef) (new : Selection) : LimitFree (link old new) := by
  intro before after done limit h
  obtain rfl := succeeds_link_iff.mp h
  exact succeeds_link_iff.mpr rfl

theorem limitFree_linkAll (old new : Nat) : LimitFree (linkAll old new) := by
  refine limitFree_get_bind (fun _ _ => rfl) fun state => ?_
  cases state.graph.node new with
  | error error => exact limitFree_throw error
  | ok node =>
      exact limitFree_forM _ fun port =>
        (limitFree_elements ⟨new, port⟩).bind fun selection => limitFree_link ⟨old, port⟩ selection

theorem limitFree_follow (selection : Selection) : LimitFree (follow selection) := by
  intro before after new limit h
  obtain ⟨hFollows, rfl⟩ := succeeds_follow_iff.mp h
  exact succeeds_follow_iff.mpr ⟨hFollows, rfl⟩

theorem limitFree_mapInputsM {replace : Selection → RebuildM Selection}
    (h : ∀ selection, LimitFree (replace selection)) (node : Node) :
    LimitFree (node.mapInputsM replace) := by
  cases node with
  | input _ | constant _ | liar _ _ _ => exact limitFree_pure _
  | sum elements | not elements | forest elements _ | peel _ elements =>
      exact (h elements).bind fun _ => limitFree_pure _
  | multiplexer first second | dotProduct first second | compare _ first second =>
      exact (h first).bind fun _ => (h second).bind fun _ => limitFree_pure _
  | select input0 input1 selector =>
      exact (h input0).bind fun _ => (h input1).bind fun _ => (h selector).bind fun _ =>
        limitFree_pure _

theorem limitFree_copyNode (old : Nat) (node : Node) : LimitFree (copyNode old node) :=
  (limitFree_mapInputsM limitFree_follow node).bind fun copied =>
    (limitFree_add copied).bind fun new => limitFree_linkAll old new

end Rebuild

/-! ## Expanding a forest -/

theorem Affine.limitFree_emit (function : Affine) (features : Selection) :
    LimitFree (function.emit features) :=
  (limitFree_part _).bind fun _ => (Rebuild.limitFree_emit _).bind fun _ =>
    (Rebuild.limitFree_emit _).bind fun _ => (Rebuild.limitFree_emit _).bind fun _ =>
      Rebuild.limitFree_emit _

theorem Rule.limitFree_emit (rule : Rule) (features : Selection) :
    LimitFree (rule.emit features) := by
  cases rule with
  | threshold index bound =>
      exact (limitFree_part _).bind fun _ => (Rebuild.limitFree_emit _).bind fun _ =>
        Rebuild.limitFree_emit _
  | linear function =>
      exact (function.limitFree_emit features).bind fun _ => (Rebuild.limitFree_emit _).bind fun _ =>
        Rebuild.limitFree_emit _

theorem Predictor.limitFree_emit (predictor : Predictor) (features : Selection) :
    LimitFree (predictor.emit features) := by
  cases predictor with
  | constant value => exact Rebuild.limitFree_emit _
  | linear function => exact function.limitFree_emit features

namespace Subtree

theorem limitFree_emitEdge (features : Selection) (count parent : Nat) (later : List Subtree)
    (edge : Edge) : LimitFree (emitEdge features count parent later edge) := by
  refine (edge.predictor.limitFree_emit features).bind fun prediction => ?_
  cases edge.target with
  | leaf => exact limitFree_pure prediction
  | interior child => exact (limitFree_part _).bind fun _ => Rebuild.limitFree_emit _

theorem limitFree_emitAll (features : Selection) (count index : Nat) (nodes : List Interior) :
    LimitFree (emitAll features count index nodes) := by
  induction nodes generalizing index with
  | nil => exact limitFree_pure []
  | cons node behind ih =>
      exact (ih (index + 1)).bind fun later =>
        (limitFree_emitEdge features count index later node.onFalse).bind fun _ =>
          (limitFree_emitEdge features count index later node.onTrue).bind fun _ =>
            (node.rule.limitFree_emit features).bind fun _ =>
              (Rebuild.limitFree_emit _).bind fun _ => limitFree_pure _

end Subtree

namespace Wiring

theorem limitFree_emitNever (wiring : Wiring) : LimitFree wiring.emitNever := by
  unfold emitNever
  cases wiring.never with
  | none => exact (Rebuild.limitFree_emit _).bind fun _ => limitFree_pure _
  | some never => exact limitFree_pure _

theorem limitFree_emitNode (forest : Forest) (wiring : Wiring) (index : Nat)
    (decision : Selection) : LimitFree (emitNode forest wiring index decision) := by
  unfold emitNode
  split
  · exact (Rebuild.limitFree_emit _).bind fun _ => limitFree_pure _
  · cases wiring.incoming.lookup index with
    | none => exact limitFree_throw _
    | some reached =>
        exact (limitFree_emitNever wiring).bind fun _ => (Rebuild.limitFree_emit _).bind fun _ =>
          (Rebuild.limitFree_emit _).bind fun _ => limitFree_pure _

theorem limitFree_emitAll (forest : Forest) (index : Nat) (nodes : List (Interior × Subtree))
    (wiring : Wiring) : LimitFree (emitAll forest index nodes wiring) := by
  induction nodes generalizing index wiring with
  | nil => exact limitFree_pure wiring
  | cons first behind ih =>
      obtain ⟨node, subtree⟩ := first
      refine (limitFree_emitNode forest wiring index subtree.decision).bind
        fun ⟨middle, onFalse, onTrue⟩ => ?_
      dsimp only
      split
      · exact ih (index + 1) _
      · exact limitFree_throw _

end Wiring

namespace Forest

theorem limitFree_requireShape (forest : Forest) : LimitFree forest.requireShape := by
  intro before after done limit h
  obtain ⟨hValid, rfl⟩ := succeeds_requireShape_iff.mp h
  exact succeeds_requireShape_iff.mpr ⟨hValid, rfl⟩

theorem limitFree_expandUnchecked (forest : Forest) (old : Nat) (input : Selection) :
    LimitFree (forest.expandUnchecked old input) :=
  (limitFree_follow input).bind fun features =>
    (Subtree.limitFree_emitAll features _ _ _).bind fun subtrees =>
      (limitFree_part (forest.treeValues subtrees)).bind fun trees =>
        (Rebuild.limitFree_emit _).bind fun _ => (Rebuild.limitFree_emit _).bind fun output =>
          (Wiring.limitFree_emitAll forest _ _ _).bind fun wiring =>
            (limitFree_part (wiring.collect forest.edgeCount)).bind fun edges =>
              (limitFree_link _ output).bind fun _ => (limitFree_link _ trees).bind fun _ =>
                limitFree_link _ edges

end Forest

namespace Rebuild

theorem limitFree_expandNode (old : Nat) (node : Node) : LimitFree (expandNode old node) := by
  have hCopy : ∀ (node : Node) (changed : Bool),
      LimitFree (do copyNode old node; return changed) :=
    fun node changed => (limitFree_copyNode old node).bind fun _ => limitFree_pure changed
  cases node with
  | forest input ensemble =>
      exact ((ensemble.limitFree_requireShape).bind fun _ =>
        ensemble.limitFree_expandUnchecked old input).bind fun _ => limitFree_pure true
  | peel depth input =>
      cases depth with
      | zero => exact hCopy _ false
      | succ depth => exact hCopy _ true
  | input _ | constant _ | sum _ | not _ | select _ _ _ | multiplexer _ _ | dotProduct _ _
  | compare _ _ _ | liar _ _ _ => exact hCopy _ false

theorem limitFree_rebuildNodes {step : Nat → Node → RebuildM Bool}
    (h : ∀ index node, LimitFree (step index node)) (index : Nat) (nodes : List Node) :
    LimitFree (rebuildNodes step index nodes) := by
  induction nodes generalizing index with
  | nil => exact limitFree_pure false
  | cons node later ih =>
      exact (h index node).bind fun _ => (ih (index + 1)).bind fun _ => limitFree_pure _

end Rebuild

/-! ## Expansions under every limit -/

namespace Graph.Sound

variable {graph result : Graph} {before after other : Rebuild} {changed : Bool}

/-- A pass makes the same graph under every limit. -/
theorem succeeds_pass_of_checkForests_eq (h : graph.Sound)
    (hPass : Succeeds (pass expandNode graph) before (result, changed) after)
    (hChecks : other.options.checkForests = before.options.checkForests) :
    Succeeds (pass expandNode graph) other (result, changed) (start other.options) := by
  obtain ⟨_, first, hStart, hRest⟩ := succeeds_bind_iff.mp hPass
  obtain rfl := succeeds_modify_iff.mp hStart
  obtain ⟨steps, state, hNodes, _⟩ := succeeds_bind_iff.mp hRest
  obtain ⟨hResult, _⟩ := hPass.unique (h.succeeds_pass hNodes).2.2
  cases hResult
  -- The two passes start from states that differ in the limit only.
  have hOther : (start before.options).withLimit other.options.maxPasses = start other.options := by
    simp only [withLimit, start, ← hChecks]
  have hSame := limitFree_rebuildNodes limitFree_expandNode 0 graph.nodes.toList
    other.options.maxPasses hNodes
  rw [hOther] at hSame
  exact (h.succeeds_pass hSame).2.2

/-- Further passes keep a graph without forests. -/
theorem succeeds_expandMore_of_elementary (h : graph.Sound)
    (hElementary : ∀ node ∈ graph.nodes.toList, node.isForest = false)
    (options : RebuildOptions) (passes : Nat) (changed : Bool) :
    Succeeds (expandMore passes (graph, changed)) (start options) graph (start options) := by
  match passes, changed with
  | 0, _ | _ + 1, false => exact succeeds_pure_iff.mpr ⟨rfl, rfl⟩
  | passes + 1, true =>
      have hPass := h.succeeds_pass_of_elementary hElementary (start options)
      have hRest : Succeeds (expandMore passes (graph, false)) (start options) graph
          (start options) := by
        rw [expandMore_unchanged]
        exact succeeds_pure_iff.mpr ⟨rfl, rfl⟩
      exact hPass.bind hRest

/-- The result of the first pass is the result of the expansion. -/
theorem succeeds_expand_of_pass (h : graph.Sound)
    (hPass : Succeeds (pass expandNode graph) before (result, changed) after) :
    Succeeds (Rebuild.expand graph) before result (start before.options) := by
  obtain ⟨hPasses, _, rfl⟩ := h.of_pass hPass
  obtain ⟨hResult, hElementary, _⟩ := hPasses.sound h
  have hMore := hResult.succeeds_expandMore_of_elementary hElementary before.options
    (before.options.maxPasses - 1) changed
  exact hPass.bind (Succeeds.bind (succeeds_get_iff.mpr ⟨rfl, rfl⟩) hMore)

/-- An expansion that succeeds is made by a first pass. -/
theorem exists_pass_of_expand (h : graph.Sound)
    (hExpand : Succeeds (Rebuild.expand graph) before result after) :
    ∃ changed, Succeeds (pass expandNode graph) before (result, changed) (start before.options) := by
  obtain ⟨⟨first, changed⟩, middle, hPass, _⟩ := succeeds_bind_iff.mp hExpand
  obtain ⟨rfl, _⟩ := hExpand.unique (h.succeeds_expand_of_pass hPass)
  obtain ⟨_, _, rfl⟩ := h.of_pass hPass
  exact ⟨changed, hPass⟩

end Graph.Sound

/-- An expansion that succeeds under one limit does so under every other and makes the same
graph, whatever was rebuilt before.  No forest is left in it, and both expanding and copying
keep it.  In particular, a graph without forests is expanded to itself. -/
theorem Graph.Built.expand_reaches_fixedPoint {graph : Graph} (hGraph : graph.Built) :
    (∀ state result after, Succeeds (Rebuild.expand graph) state result after →
      (∀ other : Rebuild, other.options.checkForests = state.options.checkForests →
        Succeeds (Rebuild.expand graph) other result (start other.options)) ∧
      (∀ node ∈ result.nodes.toList, node.isForest = false) ∧
      ∀ other : Rebuild,
        Succeeds (Rebuild.expand result) other result (start other.options) ∧
        Succeeds (Rebuild.copy result) other result (start other.options)) ∧
    ((∀ node ∈ graph.nodes.toList, node.isForest = false) → ∀ state : Rebuild,
      Succeeds (Rebuild.expand graph) state graph (start state.options)) := by
  have hSound := hGraph.sound
  refine ⟨fun state result after hExpand => ?_, fun hElementary state =>
    hSound.succeeds_expand_of_pass (hSound.succeeds_pass_of_elementary hElementary state)⟩
  obtain ⟨changed, hPass⟩ := hSound.exists_pass_of_expand hExpand
  obtain ⟨hPasses, _, _⟩ := hSound.of_pass hPass
  obtain ⟨hResult, hElementary, _⟩ := hPasses.sound hSound
  refine ⟨fun other hChecks => ?_, hElementary, fun other => ⟨?_, hResult.succeeds_copy other⟩⟩
  · exact hSound.succeeds_expand_of_pass (hSound.succeeds_pass_of_checkForests_eq hPass hChecks)
  · exact hResult.succeeds_expand_of_pass (hResult.succeeds_pass_of_elementary hElementary other)

/-- Stacked forests, expanded under a limit of one pass and of none at all. -/
theorem Graph.Built.expand_reaches_fixedPoint_stackedForests :
    Graph.stackedForests.Built ∧ ∃ result,
      Succeeds (Rebuild.expand Graph.stackedForests) Rebuild.interrupted result
        (start Rebuild.interrupted.options) ∧
      Succeeds (Rebuild.expand Graph.stackedForests) (start ⟨0, true⟩) result (start ⟨0, true⟩) ∧
      Succeeds (Rebuild.expand result) Rebuild.interrupted result
        (start Rebuild.interrupted.options) := by
  obtain ⟨result, after, hExpand⟩ := built_stackedForests.sound.exists_expand
    (validForests_stackedForests.acceptable coveredForests_stackedForests
      Rebuild.interrupted.options)
  obtain ⟨hLimits, _⟩ := Graph.Built.expand_reaches_fixedPoint built_stackedForests
  obtain ⟨hSame, _, hKept⟩ := hLimits Rebuild.interrupted result after hExpand
  exact ⟨built_stackedForests, result, hSame Rebuild.interrupted rfl, hSame (start ⟨0, true⟩) rfl,
    (hKept Rebuild.interrupted).1⟩

end ForestGraph
