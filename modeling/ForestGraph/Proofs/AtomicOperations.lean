import ForestGraph.Proofs.Procedures
import ForestGraph.Proofs.Recordings
import ForestGraph.Proofs.Splits
import ForestGraph.Proofs.Failures
import ForestGraph.Proofs.Refusals
import ForestGraph.Proofs.UncheckedForests
import ForestGraph.Settings.Overrides

/-!
# Failed operations

The operations on lists, cursors, forests and graphs check their arguments and change
their receiver bit by bit.  Every check comes before the first change, so an operation
that fails has changed nothing and can be left out of any session.  Overrides are not
atomic, nor are the passes of a rebuild; but no error of an override promises that they
were.
-/

namespace ForestGraph

open Procedure

/-! ## Lists -/

namespace DeltaList

/-- Appends a word in place: the bytes first, then the last word, then the size. -/
def pushInPlace (value : UInt64) : Procedure DeltaList Unit := do
  ask fun list =>
    if list.size = 0 ∨ list.last ≤ value then .ok () else .error (.decreasingPush value list.last)
  modify fun list => { list with bytes := list.bytes ++ Varint.encode (value - list.last) }
  modify fun list => { list with last := value }
  modify fun list => { list with size := list.size + 1 }

theorem performs_push (value : UInt64) :
    Performs (pushInPlace value) fun list => (list.push value).map (·, ()) := by
  intro list
  unfold pushInPlace push
  rw [effect_bind, effect_ask]
  by_cases hFits : list.size = 0 ∨ list.last ≤ value
  · simp only [if_pos hFits, effect_bind, effect_modify, Except.map]
  · simp only [if_neg hFits, Except.map]

/-- What an operation does in place. -/
def Operation.perform : Operation → Procedure DeltaList Unit
  | .push value => pushInPlace value
  | .reset => modify DeltaList.reset
  | .reserve entries => modify fun list => list.reserve entries
  | .replace values => do
      let list ← ask fun _ => ofSorted values
      modify fun _ => list

theorem Operation.atomic_perform (operation : Operation) : Atomic operation.perform := by
  cases operation with
  | push value => exact (performs_push value).atomic
  | reset => exact atomic_modify _
  | reserve entries => exact atomic_modify _
  | replace values => exact atomic_ask_bind fun list => atomic_modify _

namespace Cursor

/-- Moves in place: the position first, then the entry that starts there. -/
def advanceInPlace : Procedure Cursor Unit := do
  ask fun cursor => if cursor.isValid then .ok () else .error .advancePastEnd
  modify fun cursor => { cursor with position := cursor.position + cursor.width }
  modify settle

theorem performs_advance :
    Performs advanceInPlace fun cursor => cursor.advance.map (·, ()) := by
  intro cursor
  unfold advanceInPlace advance
  rw [effect_bind, effect_ask]
  by_cases hValid : cursor.isValid = true
  · simp only [if_pos hValid, effect_bind, effect_modify, Except.map]
  · simp only [if_neg hValid, Except.map]

end Cursor

end DeltaList

/-! ## Forests -/

namespace Forest

/-- Adds an interior node in place.  The new root is listed, or the edge is led to the
new node, before the node itself is there. -/
def splitInPlace (action : Split) : Procedure Forest Nat := do
  let index ← ask fun forest => .ok forest.nodeCount
  match action.place with
  | .root => modify fun forest => { forest with roots := forest.roots ++ [index] }
  | .child parent position => do
      let node ← ask fun forest => forest.node parent
      match decisionAt? position with
      | none => throw (.noSuchEdge position parent)
      | some decision =>
          if (node.edge decision).target.isInterior then
            throw (.edgeAlreadySplit position parent)
          else
            modify fun forest => { forest with
              nodes := forest.nodes.setIfInBounds parent (node.redirect decision index) }
  modify fun forest => { forest with
    nodes := forest.nodes.push (Interior.ofLeaves action.rule action.onFalse action.onTrue
      (index * edgesPerNode)) }
  return index

theorem performs_split (action : Split) : Performs (splitInPlace action) (·.split action) := by
  intro forest
  obtain ⟨place, rule, onFalse, onTrue⟩ := action
  cases place with
  | root => simp [splitInPlace, split_root, Except.map]
  | child parent position =>
      cases hNode : forest.node parent with
      | error error =>
          have hUpdate : forest.split ⟨.child parent position, rule, onFalse, onTrue⟩ =
              .error error := by
            simp [split, hNode, except_bind_eq_error_iff]
          simp [splitInPlace, hUpdate, hNode]
      | ok node =>
          cases hDecision : decisionAt? position with
          | none =>
              have hUpdate : forest.split ⟨.child parent position, rule, onFalse, onTrue⟩ =
                  .error (.noSuchEdge position parent) := by
                simp [split, hNode, hDecision, except_bind_eq_error_iff]
              simp [splitInPlace, hUpdate, hNode, hDecision]
          | some decision =>
              by_cases hSplit : (node.edge decision).target.isInterior = true
              · have hUpdate : forest.split ⟨.child parent position, rule, onFalse, onTrue⟩ =
                    .error (.edgeAlreadySplit position parent) := by
                  simp [split, hNode, hDecision, hSplit, except_bind_eq_error_iff]
                simp [splitInPlace, hUpdate, hNode, hDecision, hSplit]
              · have hLeaf : (node.edge decision).target = .leaf := by
                  simpa [Target.isInterior_iff] using hSplit
                have hUpdate := (@split_child_eq_ok_iff forest parent position rule onFalse
                  onTrue _).mpr ⟨node, decision, node_eq_ok_iff.mp hNode,
                    decisionAt?_eq_some_iff.mp hDecision, hLeaf, rfl⟩
                simp [splitInPlace, hUpdate, hNode, hDecision, hSplit, Except.map]

/-- What a change does in place. -/
def Change.perform : Change → Procedure Forest (Option Nat)
  | .split action => some <$> splitInPlace action
  | .addToBias value => do
      modify fun forest => forest.addToBias value
      return none

theorem Change.atomic_perform (change : Change) : Atomic change.perform := by
  cases change with
  | split action => exact (performs_split action).atomic.map some
  | addToBias value => exact (atomic_modify _).map fun _ => none

/-- The forest after changes is what is left by a session of them. -/
theorem foldl_apply_eq_session (changes : List Change) (start : Forest) :
    changes.foldl Change.apply start = (session Change.perform changes start).2 := by
  have hApply : Change.apply = fun forest change => (effect change.perform forest).2 := by
    funext forest change
    cases change with
    | split action =>
        simp only [Change.apply, Change.perform, effect_map, performs_split action forest]
        cases forest.split action <;> rfl
    | addToBias value => rfl
  rw [session_snd, hApply]

end Forest

/-! ## Graphs -/

namespace Graph

/-- Adds a node in place, behind a check of every element that it reads and of its
shape. -/
def addInPlace (node : Node) : Procedure Graph Nat := do
  node.inputs.forM fun input => input.elements.forM fun element =>
    ask fun graph => graph.checkElement node input element
  ask fun _ => node.checkShape
  let index ← ask fun graph => .ok graph.size
  modify fun graph => { graph with nodes := graph.nodes.push node }
  return index

theorem performs_add (node : Node) : Performs (addInPlace node) (·.add node) := by
  intro graph
  have hElements : effect (node.inputs.forM fun input => input.elements.forM fun element =>
      ask fun graph => graph.checkElement node input element) graph =
      (node.inputs.forM fun input => input.elements.forM (graph.checkElement node input),
        graph) :=
    effect_forM fun input graph => effect_forM fun element graph => effect_ask _
  simp only [addInPlace, add, check, effect_bind, effect_ask, hElements]
  cases node.inputs.forM fun input => input.elements.forM (graph.checkElement node input) with
  | error error => rfl
  | ok =>
      cases node.checkShape with
      | error error => rfl
      | ok => rfl

/-- Names a selection in place, behind a check of every element of it. -/
def addOutputInPlace (name : String) (selection : Selection) : Procedure Graph Unit := do
  selection.forM fun element => ask fun graph => graph.checkOutputElement element
  modify fun graph => { graph with outputs := graph.outputs.insert name selection }

theorem performs_addOutput (name : String) (selection : Selection) :
    Performs (addOutputInPlace name selection)
      fun graph => (graph.addOutput name selection).map (·, ()) := by
  intro graph
  have hElements : effect (selection.forM fun element =>
      ask fun graph => graph.checkOutputElement element) graph =
      (selection.forM graph.checkOutputElement, graph) :=
    effect_forM fun element graph => effect_ask _
  simp only [addOutputInPlace, addOutput, effect_bind, hElements]
  cases selection.forM graph.checkOutputElement with
  | error error => rfl
  | ok => rfl

/-- What a call does in place. -/
def Call.perform : Call → Procedure Graph (Option Nat)
  | .add node => some <$> addInPlace node
  | .addOutput name selection => do
      addOutputInPlace name selection
      return none

theorem Call.atomic_perform (call : Call) : Atomic call.perform := by
  cases call with
  | add node => exact (performs_add node).atomic.map some
  | addOutput name selection => exact (performs_addOutput name selection).atomic.map fun _ => none

/-- The graph that calls make is what is left by a session of them. -/
theorem assemble_eq_session (calls : List Call) :
    assemble calls = (session Call.perform calls empty).2 := by
  have hApply : Call.apply = fun graph call => (effect call.perform graph).2 := by
    funext graph call
    cases call with
    | add node =>
        simp only [Call.apply, Call.perform, effect_map, performs_add node graph]
        cases graph.add node <;> rfl
    | addOutput name selection =>
        simp only [Call.apply, Call.perform, effect_bind, performs_addOutput name selection graph]
        cases graph.addOutput name selection <;> rfl
  rw [assemble, session_snd, hApply]

end Graph

/-! ## Overrides -/

namespace Settings

variable {settings after : Settings} {lookup : Lookup} {error : Error}

theorem not_isRecoverable_of_validate (h : settings.validate = .error error) :
    error.isRecoverable = false := by
  unfold validate at h
  split at h
  · cases h
    rfl
  · split at h <;> cases h
    rfl

/-- Whatever ends the reading of overrides, it is not recoverable. -/
theorem not_isRecoverable_of_applyEach {later : List Override}
    (h : applyEach lookup settings later = (after, .error error)) :
    error.isRecoverable = false := by
  induction later generalizing settings with
  | nil => exact not_isRecoverable_of_validate (congrArg Prod.snd h)
  | cons override later ih =>
      unfold applyEach at h
      cases hText : lookup (variablePrefix ++ override.suffix) with
      | none =>
          simp only [hText] at h
          exact ih h
      | some text =>
          simp only [hText] at h
          cases hOverride : override.override? settings text with
          | none =>
              rw [hOverride] at h
              cases congrArg Prod.snd h
              rfl
          | some overridden =>
              rw [hOverride] at h
              exact ih h

/-- Variables of which the first can be read and the second cannot. -/
def halfReadable : Lookup
  | "FOREST_LOWER_VALIDATE_FOREST" => some "no"
  | "FOREST_LOWER_NUM_THREADS" => some "many"
  | _ => none

/-- The variable that can be read has taken effect when the other is refused. -/
theorem applyOverrides_halfReadable :
    default.applyOverrides halfReadable = ({ default with validateForest := false },
      .error (.overrideText "FOREST_LOWER_NUM_THREADS")) := by
  have hReadable : truth? "no" = some false := by decide +kernel
  have hUnreadable : Literal.natural? "many" = none := by decide +kernel
  simp [applyOverrides, applyEach, overrides, variablePrefix, halfReadable, hReadable, hUnreadable]

end Settings

/-! ## The operations together -/

/-- The operations that change a receiver in place do what the updates do, and nothing if
they fail, so that a failed one can be left out of any session.  Overrides may fail half
done, but never with an error that can be recovered from. -/
theorem failed_operations_change_nothing :
    (∀ value, Performs (DeltaList.pushInPlace value)
      fun list => (list.push value).map (·, ())) ∧
    (Performs DeltaList.Cursor.advanceInPlace fun cursor => cursor.advance.map (·, ())) ∧
    (∀ action, Performs (Forest.splitInPlace action) fun forest => forest.split action) ∧
    (∀ node, Performs (Graph.addInPlace node) fun graph => graph.add node) ∧
    (∀ name selection, Performs (Graph.addOutputInPlace name selection)
      fun graph => (graph.addOutput name selection).map (·, ())) ∧
    Retries DeltaList.Operation.perform ∧
    (Retries fun _ : Unit => DeltaList.Cursor.advanceInPlace) ∧
    Retries Forest.Change.perform ∧
    Retries Graph.Call.perform ∧
    (∃ settings lookup after error,
      Settings.applyOverrides settings lookup = (after, .error error) ∧ after ≠ settings) ∧
    ∀ settings lookup after error,
      Settings.applyOverrides settings lookup = (after, .error error) →
        error.isRecoverable = false := by
  refine ⟨DeltaList.performs_push, DeltaList.Cursor.performs_advance, Forest.performs_split,
    Graph.performs_add, Graph.performs_addOutput,
    retries_of_atomic DeltaList.Operation.atomic_perform,
    retries_of_atomic fun _ => DeltaList.Cursor.performs_advance.atomic,
    retries_of_atomic Forest.Change.atomic_perform, retries_of_atomic Graph.Call.atomic_perform,
    ⟨_, _, _, _, Settings.applyOverrides_halfReadable, fun hSame => ?_⟩,
    fun settings lookup after error h => Settings.not_isRecoverable_of_applyEach h⟩
  cases congrArg Settings.validateForest hSame

/-! ## Rebuilds -/

namespace Graph

open Rebuild

/-- An expansion that meets an invalid forest leaves the nodes before it rebuilt. -/
theorem Built.exists_expand_refused {graph : Graph} (hGraph : graph.Built) {before : Rebuild}
    {first later : List Node} {input : Selection} {ensemble : Forest} {error : Error}
    (hNodes : graph.nodes.toList = first ++ .forest input ensemble :: later)
    (hFirst : ∀ node ∈ first, node.Acceptable before.options)
    (hChecks : before.options.checkForests = true) (hInvalid : ensemble.validate = .error error) :
    ∃ after, effect (Rebuild.expand graph) before = (.error error, after) ∧
      Linked first after := by
  have hTyped := hGraph.sound.typed
  rw [hNodes] at hTyped
  have hStart := linked_start before.options
  have hBefore : TypedSequence ([] ++ first) := hTyped.of_append
  obtain ⟨changed, after, hRebuild⟩ := hStart.exists_rebuildNodes hBefore hFirst
  obtain ⟨_, hRebuilds⟩ := hStart.of_rebuildNodes hBefore hRebuild
  refine ⟨after, fails_expand ?_, hRebuilds.linked (fun _ => hBefore.isStandard_of_mem) hStart⟩
  rw [hNodes]
  exact fails_rebuildNodes hRebuild
    (fails_expandNode_of_invalid _ input (hRebuilds.options ▸ hChecks) hInvalid)

/-- A refused expansion of a graph with an input leaves the input behind. -/
theorem not_atomic_expand : sharedChild.Built ∧ ¬ Atomic (Rebuild.expand sharedChild) := by
  refine ⟨built_sharedChild, fun hAtomic => ?_⟩
  have hFirst : ∀ node ∈ [Node.input 2], node.Acceptable ⟨10, true⟩ := by
    rintro node hNode input ensemble rfl
    cases List.mem_singleton.mp hNode
  obtain ⟨after, hExpand, hLinked⟩ := @Built.exists_expand_refused _ built_sharedChild
    (start ⟨10, true⟩) _ [] _ Forest.sharedChild (.secondParent 2) rfl hFirst rfl rfl
  have hSame := hAtomic _ _ _ hExpand
  have hInput := (hLinked.inputs 2).mpr (.head _)
  rw [hSame] at hInput
  cases hInput

end Graph

end ForestGraph
