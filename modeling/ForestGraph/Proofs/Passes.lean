import ForestGraph.Proofs.Simulation

/-!
# Expanding passes

When an expanding pass succeeds, and what it makes of a graph: its nodes are
rebuilt one after the other, and every named output follows the links.  A pass
starts from nothing but the options, so neither the verdict nor the result depends
on what was rebuilt before.
-/

namespace ForestGraph

open Rebuild

/-! ## Rebuilding the nodes -/

section Nodes

variable {nodes later : List Node} {node : Node} {before after : Rebuild} {changed : Bool}

/-- Elementary nodes are copied. -/
theorem expandNode_of_elementary (old : Nat) (hStandard : node.isStandard = true)
    (hForest : node.isForest = false) :
    expandNode old node = (do copyNode old node; return false) := by
  cases node with
  | forest _ _ => cases hForest
  | peel _ _ | liar _ _ _ => cases hStandard
  | _ => rfl

theorem Linked.exists_copyNode (hLinked : Linked nodes before) (hTyped : node.WellTyped nodes)
    (hForest : node.isForest = false) :
    ∃ after, Succeeds (copyNode nodes.length node) before () after ∧
      Replaces nodes node before after := by
  obtain ⟨after, hCopy, hNew, hCopied⟩ := Rebuild.exists_copyNode nodes.length hTyped
    fun input hInput => hLinked.follows (hTyped.inputs input hInput)
  refine ⟨after, hCopy, .copied hForest hNew (fun input hInput => ?_) hCopied⟩
  exact (hLinked.follows (hTyped.inputs input hInput)).1

/-- An expanding step that succeeds rebuilds its node. -/
theorem Linked.of_expandNode (hLinked : Linked nodes before) (hTyped : node.WellTyped nodes)
    (hStandard : node.isStandard = true)
    (h : Succeeds (expandNode nodes.length node) before changed after) :
    changed = node.isForest ∧ Replaces nodes node before after := by
  by_cases hForest : node.isForest = true
  · cases node with
    | forest input ensemble =>
        obtain ⟨_, middle, hExpand, hDone⟩ := succeeds_bind_iff.mp h
        obtain ⟨rfl, rfl⟩ := succeeds_pure_iff.mp hDone
        obtain ⟨_, checked, hShape, hUnchecked⟩ := succeeds_bind_iff.mp hExpand
        obtain ⟨hChecked, rfl⟩ := Forest.succeeds_requireShape_iff.mp hShape
        obtain ⟨hExpandable, features, hFollows, output, trees, edges, hExpanded⟩ :=
          Forest.of_expandUnchecked hUnchecked
        exact ⟨rfl, .expanded hChecked hExpandable hFollows hExpanded⟩
    | _ => cases hForest
  · rw [Bool.not_eq_true] at hForest
    rw [expandNode_of_elementary _ hStandard hForest] at h
    obtain ⟨copy, hCopy, hReplaces⟩ := hLinked.exists_copyNode hTyped hForest
    obtain ⟨_, middle, hStep, hDone⟩ := succeeds_bind_iff.mp h
    obtain ⟨rfl, rfl⟩ := succeeds_pure_iff.mp hDone
    obtain ⟨-, rfl⟩ := hStep.unique hCopy
    exact ⟨hForest.symm, hReplaces⟩

/-- An expanding step succeeds on acceptable nodes. -/
theorem Linked.exists_expandNode (hLinked : Linked nodes before) (hTyped : node.WellTyped nodes)
    (hStandard : node.isStandard = true) (hAcceptable : node.Acceptable before.options) :
    ∃ changed after, Succeeds (expandNode nodes.length node) before changed after := by
  by_cases hForest : node.isForest = true
  · cases node with
    | forest input ensemble =>
        obtain ⟨hChecked, hExpandable, hReads⟩ := hAcceptable input ensemble rfl
        have hInput := hTyped.inputs ⟨"input", input, .real⟩ (by simp [Node.inputs])
        obtain ⟨hFollows, hType⟩ := hLinked.follows hInput
        rw [hFollows.length_eq] at hReads
        have hShape : Succeeds ensemble.requireShape before () before :=
          Forest.succeeds_requireShape_iff.mpr ⟨hChecked, rfl⟩
        obtain ⟨after, hExpand⟩ := @Forest.exists_expandUnchecked _ nodes.length _ _ _
          hExpandable hFollows hType hReads
        exact ⟨true, after, (hShape.bind hExpand).bind (succeeds_pure_iff.mpr ⟨rfl, rfl⟩)⟩
    | _ => cases hForest
  · rw [Bool.not_eq_true] at hForest
    obtain ⟨after, hCopy, _⟩ := hLinked.exists_copyNode hTyped hForest
    refine ⟨false, after, ?_⟩
    rw [expandNode_of_elementary _ hStandard hForest]
    exact hCopy.bind (succeeds_pure_iff.mpr ⟨rfl, rfl⟩)

/-- The steps over all nodes rebuild them, and tell whether one is a forest. -/
theorem Linked.of_rebuildNodes (hLinked : Linked nodes before)
    (hTyped : TypedSequence (nodes ++ later))
    (h : Succeeds (rebuildNodes expandNode nodes.length later) before changed after) :
    changed = later.any Node.isForest ∧ Rebuilds nodes later before after := by
  induction later generalizing nodes before changed with
  | nil =>
      obtain ⟨rfl, rfl⟩ := succeeds_pure_iff.mp h
      exact ⟨rfl, .nil⟩
  | cons node later ih =>
      obtain ⟨hNode, hStandard⟩ := hTyped.node_of_append_cons
      obtain ⟨first, middle, hStep, hRest⟩ := succeeds_bind_iff.mp h
      obtain ⟨others, last, hLater, hDone⟩ := succeeds_bind_iff.mp hRest
      obtain ⟨rfl, rfl⟩ := succeeds_pure_iff.mp hDone
      obtain ⟨rfl, hReplaces⟩ := hLinked.of_expandNode hNode hStandard hStep
      -- The step keeps the invariant that the next one needs.
      have hNext := hLinked.step hStandard hReplaces
      rw [List.append_cons] at hTyped
      obtain ⟨rfl, hRebuilds⟩ := ih hNext hTyped (by simpa using hLater)
      exact ⟨rfl, .cons hReplaces hRebuilds⟩

theorem Linked.exists_rebuildNodes (hLinked : Linked nodes before)
    (hTyped : TypedSequence (nodes ++ later))
    (hAcceptable : ∀ node ∈ later, node.Acceptable before.options) :
    ∃ changed after,
      Succeeds (rebuildNodes expandNode nodes.length later) before changed after := by
  induction later generalizing nodes before with
  | nil => exact ⟨false, before, succeeds_pure_iff.mpr ⟨rfl, rfl⟩⟩
  | cons node later ih =>
      obtain ⟨hNode, hStandard⟩ := hTyped.node_of_append_cons
      obtain ⟨hFirst, hOthers⟩ := List.forall_mem_cons.mp hAcceptable
      obtain ⟨first, middle, hStep⟩ := hLinked.exists_expandNode hNode hStandard hFirst
      obtain ⟨_, hReplaces⟩ := hLinked.of_expandNode hNode hStandard hStep
      rw [List.append_cons] at hTyped
      rw [← hReplaces.options] at hOthers
      obtain ⟨others, after, hLater⟩ := ih (hLinked.step hStandard hReplaces) hTyped hOthers
      rw [List.length_append] at hLater
      exact ⟨first || others, after,
        hStep.bind (hLater.bind (succeeds_pure_iff.mpr ⟨rfl, rfl⟩))⟩

end Nodes

/-! ## Copying the outputs -/

/-- The named outputs with every selection followed. -/
def NamedSelections.follow (links : Std.HashMap OutputRef Selection) (outputs : NamedSelections) :
    NamedSelections :=
  outputs.map fun entry => (entry.1, followed links entry.2)

/-- Outputs in the order of their names are copied behind those before, if they can be
followed to declared elements. -/
theorem succeeds_copyOutputs {state : Rebuild} {outputs : NamedSelections}
    (hFollows : ∀ entry ∈ outputs, Follows state.links entry.2 (followed state.links entry.2) ∧
      (followed state.links entry.2).Declared state.emitted)
    (hOrdered : NamedSelections.Ordered (state.graph.outputs ++ outputs)) :
    Succeeds (copyOutputs outputs) state () { state with
      graph := { state.graph with
        outputs := state.graph.outputs ++ outputs.follow state.links } } := by
  induction outputs generalizing state with
  | nil =>
      refine succeeds_pure_iff.mpr ⟨rfl, ?_⟩
      simp [NamedSelections.follow]
  | cons entry later ih =>
      obtain ⟨name, selection⟩ := entry
      obtain ⟨⟨hFirst, hFollowed⟩, hLater⟩ := List.forall_mem_cons.mp hFollows
      -- The names come in order, so each one is inserted behind all others.
      have hBehind : ∀ entry ∈ state.graph.outputs, entry.1 < name := by
        intro entry hEntry
        exact (List.pairwise_append.mp hOrdered).2.2 entry hEntry (name, selection) (by simp)
      let next : Rebuild := { state with graph := { state.graph with
        outputs := state.graph.outputs ++ [(name, followed state.links selection)] } }
      have hAdd : state.graph.addOutput name (followed state.links selection) = .ok next.graph := by
        rw [Graph.addOutput_eq_ok_iff, NamedSelections.insert_of_forall_lt hBehind]
        exact ⟨hFollowed, rfl⟩
      have hRest := @ih next hLater (hOrdered.of_names (by simp [next]))
      have hOutputs : state.graph.outputs ++ NamedSelections.follow state.links
          ((name, selection) :: later) = next.graph.outputs ++
          NamedSelections.follow next.links later := by simp [next, NamedSelections.follow]
      rw [hOutputs]
      refine succeeds_bind_iff.mpr ⟨(), next, ?_, hRest⟩
      refine (succeeds_follow_iff.mpr ⟨hFirst, rfl⟩).bind ?_
      refine Succeeds.bind (succeeds_get_iff.mpr ⟨rfl, rfl⟩) ?_
      rw [hAdd]
      exact succeeds_set_iff.mpr rfl

/-! ## One pass -/

/-- What a pass makes of a graph: all nodes are rebuilt from the start, and the outputs
follow the links. -/
def Passes (options : RebuildOptions) (old new : Graph) : Prop :=
  ∃ state, Rebuilds [] old.nodes.toList (start options) state ∧
    new = ⟨state.graph.nodes, old.outputs.follow state.links⟩

section Pass

variable {old new : Graph} {before after : Rebuild} {changed : Bool}

/-- A pass whose steps succeed hands out the new nodes, and the outputs that follow the
links. -/
theorem succeeds_pass_of_steps {step : Nat → Node → RebuildM Bool} {state : Rebuild}
    (hNodes : Succeeds (rebuildNodes step 0 old.nodes.toList) (start before.options) changed
      state)
    (hOptions : state.options = before.options) (hOutputs : state.graph.outputs = [])
    (hFollows : ∀ entry ∈ old.outputs, Follows state.links entry.2
      (followed state.links entry.2) ∧ (followed state.links entry.2).Declared state.emitted)
    (hOrdered : old.outputs.Ordered) :
    Succeeds (pass step old) before
      (⟨state.graph.nodes, old.outputs.follow state.links⟩, changed) (start before.options) := by
  have hCopy := succeeds_copyOutputs hFollows (by rw [hOutputs]; exact hOrdered)
  rw [hOutputs, List.nil_append] at hCopy
  have hStart : Succeeds (modify fun state => start state.options) before ()
      (start before.options) := succeeds_modify_iff.mpr rfl
  refine hStart.bind (hNodes.bind (hCopy.bind ?_))
  refine Succeeds.bind (succeeds_get_iff.mpr ⟨rfl, rfl⟩) ?_
  have hReset : ∀ last, Succeeds (set (start state.options)) last () (start before.options) :=
    fun last => succeeds_set_iff.mpr (congrArg start hOptions.symm)
  exact (hReset _).bind (succeeds_pure_iff.mpr ⟨rfl, rfl⟩)

/-- The steps of a pass behind the rebuild of the nodes succeed. -/
theorem Graph.Sound.succeeds_pass (hOld : old.Sound) {state : Rebuild}
    (hNodes : Succeeds (rebuildNodes expandNode 0 old.nodes.toList) (start before.options)
      changed state) :
    changed = old.nodes.toList.any Node.isForest ∧
      Rebuilds [] old.nodes.toList (start before.options) state ∧
      Succeeds (pass expandNode old) before
        (⟨state.graph.nodes, old.outputs.follow state.links⟩, changed) (start before.options) := by
  obtain ⟨hChanged, hRebuilds⟩ := (linked_start before.options).of_rebuildNodes hOld.typed hNodes
  have hLinked := hRebuilds.linked (fun node hNode => hOld.typed.isStandard_of_mem hNode)
    (linked_start before.options)
  exact ⟨hChanged, hRebuilds, succeeds_pass_of_steps hNodes hRebuilds.options hRebuilds.outputs
    (fun entry hEntry => hLinked.follows_declared (hOld.declared entry hEntry)) hOld.ordered⟩

/-- A pass that succeeds hands out the rebuilt graph, and leaves nothing behind. -/
theorem Graph.Sound.of_pass (hOld : old.Sound)
    (h : Succeeds (pass expandNode old) before (new, changed) after) :
    Passes before.options old new ∧ changed = old.nodes.toList.any Node.isForest ∧
      after = start before.options := by
  obtain ⟨_, first, hStart, hRest⟩ := succeeds_bind_iff.mp h
  rw [succeeds_modify_iff] at hStart
  subst first
  obtain ⟨steps, state, hNodes, _⟩ := succeeds_bind_iff.mp hRest
  obtain ⟨hChanged, hRebuilds, hPass⟩ := hOld.succeeds_pass hNodes
  obtain ⟨hResult, hAfter⟩ := h.unique hPass
  cases hResult
  exact ⟨⟨state, hRebuilds, rfl⟩, hChanged, hAfter.symm⟩

/-- A pass succeeds if all nodes are acceptable. -/
theorem Graph.Sound.exists_pass (hOld : old.Sound)
    (hAcceptable : ∀ node ∈ old.nodes.toList, node.Acceptable before.options) :
    ∃ new changed, Succeeds (pass expandNode old) before (new, changed)
      (start before.options) := by
  obtain ⟨changed, state, hNodes⟩ :=
    (linked_start before.options).exists_rebuildNodes hOld.typed hAcceptable
  exact ⟨_, changed, (hOld.succeeds_pass hNodes).2.2⟩

namespace Passes

variable {options : RebuildOptions}

theorem acceptable (h : Passes options old new) :
    ∀ node ∈ old.nodes.toList, node.Acceptable options := by
  obtain ⟨state, hRebuilds, _⟩ := h
  exact hRebuilds.acceptable

/-- A pass over a sound graph makes a sound graph without forests. -/
theorem sound (h : Passes options old new) (hOld : old.Sound) :
    new.Sound ∧ (∀ node ∈ new.nodes.toList, node.isForest = false) ∧
      ∀ size, Node.input size ∈ new.nodes.toList ↔ Node.input size ∈ old.nodes.toList := by
  obtain ⟨state, hRebuilds, rfl⟩ := h
  have hLinked := hRebuilds.linked (fun node hNode => hOld.typed.isStandard_of_mem hNode)
    (linked_start options)
  refine ⟨⟨hLinked.typed, hOld.ordered.of_names ?_, fun entry hEntry => ?_⟩,
    hLinked.elementary, hLinked.inputs⟩
  · simp [NamedSelections.follow]
  · obtain ⟨old, hMem, rfl⟩ := List.mem_map.mp hEntry
    exact (hLinked.follows_declared (hOld.declared old hMem)).2

end Passes

end Pass

end ForestGraph
