import ForestGraph.Graph.Rebuild
import ForestGraph.Proofs.TypedEvaluation

/-!
# Steps of a rebuild

A step of a rebuild is described by the states before and after its success.
`Succeeds` turns a sequence of steps into a chain of states, and each primitive
step has one lemma that says when it succeeds and what it leaves behind.
-/

namespace ForestGraph.Rebuild

/-- A step succeeds in a state with a value and another state. -/
def Succeeds {α : Type} (step : RebuildM α) (before : Rebuild) (value : α) (after : Rebuild) :
    Prop :=
  (ExceptT.run step).run before = (.ok value, after)

/-- The nodes of the graph under construction, as a list. -/
def emitted (state : Rebuild) : List Node :=
  state.graph.nodes.toList

variable {α β : Type} {before after : Rebuild}

/-- A step has one outcome. -/
theorem Succeeds.unique {step : RebuildM α} {value other : α} {state : Rebuild}
    (h : Succeeds step before value after) (hOther : Succeeds step before other state) :
    other = value ∧ state = after := by
  unfold Succeeds at h hOther
  rw [h] at hOther
  injection hOther with hValue hState
  injection hValue with hValue
  exact ⟨hValue.symm, hState.symm⟩

@[simp] theorem succeeds_pure_iff {value result : α} :
    Succeeds (pure value) before result after ↔ result = value ∧ after = before := by
  constructor
  · intro h
    injection h with hValue hState
    injection hValue with hValue
    exact ⟨hValue.symm, hState.symm⟩
  · rintro ⟨rfl, rfl⟩
    rfl

@[simp] theorem not_succeeds_throw {error : Error} {result : α} :
    ¬ Succeeds (throw error) before result after := by
  intro h
  injection h with hValue _
  cases hValue

/-- Two steps succeed one after the other. -/
theorem succeeds_bind_iff {step : RebuildM α} {rest : α → RebuildM β} {result : β} :
    Succeeds (step >>= rest) before result after ↔
      ∃ value middle, Succeeds step before value middle ∧
        Succeeds (rest value) middle result after := by
  unfold Succeeds
  rw [ExceptT.run_bind, StateT.run_bind]
  -- A failed step ends the run, and a step that succeeds hands its state on to the rest.
  cases hStep : (ExceptT.run step).run before with
  | mk outcome middle =>
      cases outcome with
      | error error =>
          constructor
          · intro h
            injection h with hValue _
            cases hValue
          · rintro ⟨value, state, hValue, _⟩
            injection hValue with hValue _
            cases hValue
      | ok value =>
          constructor
          · exact fun h => ⟨value, middle, rfl, h⟩
          · rintro ⟨other, state, hValue, h⟩
            injection hValue with hValue hState
            injection hValue with hValue
            subst hValue hState
            exact h

theorem Succeeds.bind {step : RebuildM α} {rest : α → RebuildM β} {value : α}
    {result : β} {middle : Rebuild} (hStep : Succeeds step before value middle)
    (hRest : Succeeds (rest value) middle result after) :
    Succeeds (step >>= rest) before result after :=
  succeeds_bind_iff.mpr ⟨value, middle, hStep, hRest⟩

@[simp] theorem succeeds_get_iff {state : Rebuild} :
    Succeeds get before state after ↔ state = before ∧ after = before := by
  constructor
  · intro h
    injection h with hValue hState
    injection hValue with hValue
    exact ⟨hValue.symm, hState.symm⟩
  · rintro ⟨rfl, rfl⟩
    rfl

@[simp] theorem succeeds_set_iff {state : Rebuild} {done : PUnit} :
    Succeeds (set state) before done after ↔ after = state := by
  constructor
  · intro h
    injection h with _ hState
    exact hState.symm
  · rintro rfl
    rfl

@[simp] theorem succeeds_modify_iff {change : Rebuild → Rebuild} {done : PUnit} :
    Succeeds (modify change) before done after ↔ after = change before := by
  constructor
  · intro h
    injection h with _ hState
    exact hState.symm
  · rintro rfl
    rfl

/-! ## Primitive steps -/

/-- A node is added exactly when it is well typed behind the nodes so far. -/
theorem succeeds_add_iff {node : Node} {index : Nat} :
    Succeeds (add node) before index after ↔
      node.WellTyped before.emitted ∧ index = before.emitted.length ∧
        after = { before with graph :=
          { before.graph with nodes := before.graph.nodes.push node } } := by
  unfold add emitted
  rw [succeeds_bind_iff]
  constructor
  · rintro ⟨state, middle, hGet, h⟩
    obtain ⟨hState, hMiddle⟩ := succeeds_get_iff.mp hGet
    rw [hState, hMiddle] at h
    cases hAdd : before.graph.add node with
    | error error =>
        rw [hAdd] at h
        exact absurd h not_succeeds_throw
    | ok result =>
        rw [hAdd] at h
        obtain ⟨hCheck, rfl⟩ := Graph.add_eq_ok_iff.mp hAdd
        obtain ⟨_, next, hSet, hIndex⟩ := succeeds_bind_iff.mp h
        rw [succeeds_set_iff] at hSet
        obtain ⟨rfl, rfl⟩ := succeeds_pure_iff.mp hIndex
        exact ⟨Graph.check_eq_ok_iff.mp hCheck, rfl, hSet⟩
  · rintro ⟨hTyped, rfl, rfl⟩
    refine ⟨before, before, succeeds_get_iff.mpr ⟨rfl, rfl⟩, ?_⟩
    rw [Graph.add_of_wellTyped hTyped]
    refine succeeds_bind_iff.mpr ⟨(), _, succeeds_set_iff.mpr rfl, ?_⟩
    exact succeeds_pure_iff.mpr ⟨rfl, rfl⟩

/-- The elements of a declared port are looked up. -/
theorem succeeds_elements {output : OutputRef} {node : Node} {port : OutputPort}
    (hNode : before.emitted[output.node]? = some node)
    (hPort : node.outputs[output.port]? = some port) :
    Succeeds (elements output) before (Selection.ofOutput output port.size) before := by
  unfold emitted at hNode
  rw [Array.getElem?_toList] at hNode
  refine Succeeds.bind (succeeds_get_iff.mpr ⟨rfl, rfl⟩) ?_
  rw [Graph.elements_of_port hNode hPort]
  exact succeeds_pure_iff.mpr ⟨rfl, rfl⟩

@[simp] theorem succeeds_link_iff {old : OutputRef} {new : Selection} {done : Unit} :
    Succeeds (link old new) before done after ↔
      after = { before with links := before.links.insert old new } :=
  succeeds_modify_iff

/-! ## Links -/

/-- An old element is linked to a new one. -/
def LinkedTo (links : Std.HashMap OutputRef Selection) (old new : Element) : Prop :=
  ∃ selection, links[old.output]? = some selection ∧ selection[old.index]? = some new

/-- A selection of old elements is linked to new ones, one by one. -/
def Follows (links : Std.HashMap OutputRef Selection) : Selection → Selection → Prop :=
  List.Forall₂ (LinkedTo links)

theorem LinkedTo.unique {links : Std.HashMap OutputRef Selection} {old new other : Element}
    (h : LinkedTo links old new) (hOther : LinkedTo links old other) : other = new := by
  obtain ⟨selection, hSelection, hNew⟩ := h
  obtain ⟨same, hSame, hOtherNew⟩ := hOther
  rw [hSelection] at hSame
  cases hSame
  rw [hNew] at hOtherNew
  exact (Option.some.inj hOtherNew).symm

theorem followElement_eq_ok_iff {links : Std.HashMap OutputRef Selection} {element : Element}
    {part : Selection} :
    followElement links element = .ok part ↔ ∃ new, LinkedTo links element new ∧ part = [new] := by
  unfold followElement LinkedTo
  cases links[element.output]? with
  | none => simp
  | some selection => simp [Selection.element_eq_ok_iff]

theorem mapM_followElement_eq_ok_iff {links : Std.HashMap OutputRef Selection}
    {selection : Selection} {parts : List Selection} :
    selection.mapM (followElement links) = .ok parts ↔
      ∃ new, Follows links selection new ∧ parts = new.map fun element => [element] := by
  rw [mapM_eq_ok_iff]
  simp only [followElement_eq_ok_iff]
  exact forall₂_exists_map_iff

/-- A selection is followed to the elements that its own are linked to. -/
theorem succeeds_follow_iff {selection new : Selection} :
    Succeeds (follow selection) before new after ↔
      Follows before.links selection new ∧ after = before := by
  have hFlatten : ∀ elements : Selection, (elements.map fun e => [e]).flatten = elements :=
    List.flatMap_singleton'
  unfold follow
  rw [succeeds_bind_iff]
  constructor
  · rintro ⟨state, middle, hGet, h⟩
    obtain ⟨hState, hMiddle⟩ := succeeds_get_iff.mp hGet
    rw [hState, hMiddle] at h
    cases hCase : selection.mapM (followElement before.links) with
    | error error =>
        rw [hCase] at h
        exact absurd h not_succeeds_throw
    | ok parts =>
        rw [hCase] at h
        obtain ⟨rfl, hAfter⟩ := succeeds_pure_iff.mp h
        obtain ⟨elements, hElements, rfl⟩ := mapM_followElement_eq_ok_iff.mp hCase
        rw [hFlatten]
        exact ⟨hElements, hAfter⟩
  · rintro ⟨hFollows, rfl⟩
    refine ⟨after, after, succeeds_get_iff.mpr ⟨rfl, rfl⟩, ?_⟩
    rw [mapM_followElement_eq_ok_iff.mpr ⟨new, hFollows, rfl⟩]
    exact succeeds_pure_iff.mpr ⟨(hFlatten new).symm, rfl⟩

end ForestGraph.Rebuild
