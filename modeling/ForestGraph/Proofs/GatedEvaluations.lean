import ForestGraph.Proofs.UncheckedForests

/-!
# What expanded graphs compute

An expansion without checks keeps the output and the tree outputs of every forest it
accepts, but marks the edges of gated nodes instead of the taken ones, and other nodes
may read these marks.  So the expanded graph computes what the graph does when its
forests mark gated edges: a `GatedRun`.  This holds of all ports, faithful or not.
-/

namespace ForestGraph

open Rebuild

/-- What a node computes if forests mark the edges of their gated nodes. -/
inductive GatedPorts (vector : List Float) (seen : Evaluation) :
    Node → List (List Value) → Prop where
  | elementary {node : Node} {ports : List (List Value)} : node.isForest = false →
      node.compute vector seen = .ok ports → GatedPorts vector seen node ports
  | forest {input : Selection} {ensemble : Forest} {numbers : List Float} {outcome : Outcome}
      {flags : List Bool} : seen.readReals input = .ok numbers →
      ensemble.evaluate numbers = .ok outcome → ensemble.GateFlags numbers flags →
      GatedPorts vector seen (.forest input ensemble)
        ({ outcome with edgeIndicator := flags } : Outcome).ports

/-- The evaluation of nodes behind others, if forests mark the edges of their gated nodes. -/
inductive GatedRun (vector : List Float) : Evaluation → List Node → Evaluation → Prop where
  | nil {seen : Evaluation} : GatedRun vector seen [] seen
  | cons {seen last : Evaluation} {node : Node} {later : List Node} {ports : List (List Value)} :
      GatedPorts vector seen node ports → GatedRun vector (seen.push ports) later last →
      GatedRun vector seen (node :: later) last

/-- Linked elements hold the values of an evaluation. -/
def Shows (vector : List Float) (seen : Evaluation) (state : Rebuild) : Prop :=
  ∀ old new value, LinkedTo state.links old new → seen.value? old = some value →
    Reads state.emitted vector [new] [value]

section Steps

variable {vector : List Float} {seen last : Evaluation} {nodes later : List Node} {node : Node}
  {ports : List (List Value)} {before after : Rebuild}

/-- An element holds a value before one more node is computed, or it is one of that node. -/
theorem Evaluation.value?_push_iff {element : Element} {value : Value} :
    (seen.push ports).value? element = some value ↔
      seen.value? element = some value ∨ element.output.node = seen.values.toList.length ∧
        ∃ values, ports[element.output.port]? = some values ∧
          values[element.index]? = some value := by
  simp only [value?_eq_toList, toList_push, Option.bind_eq_some_iff]
  constructor
  · rintro ⟨found, hFound, values, hValues, hValue⟩
    rcases Nat.lt_or_ge element.output.node seen.values.toList.length with hNode | hNode
    · rw [List.getElem?_append_left hNode] at hFound
      exact .inl ⟨found, hFound, values, hValues, hValue⟩
    · rw [List.getElem?_append_right hNode, List.getElem?_singleton] at hFound
      obtain ⟨hAt, hSame⟩ := Option.ite_none_right_eq_some.mp hFound
      cases hSame
      exact .inr ⟨by omega, values, hValues, hValue⟩
  · rintro (⟨found, hFound, hRest⟩ | ⟨hNode, hRest⟩)
    · have hBound := (List.getElem?_eq_some_iff.mp hFound).1
      exact ⟨found, (List.getElem?_append_left hBound).trans hFound, hRest⟩
    · exact ⟨ports, by simp [hNode], hRest⟩

theorem GatedPorts.portsFit (h : GatedPorts vector seen node ports)
    (hTyped : node.WellTyped nodes) (hStandard : node.isStandard = true)
    (hFits : seen.Fits nodes) : PortsFit ports node.outputs := by
  cases h with
  | elementary _ hPorts => exact hTyped.portsFit hStandard hFits hPorts
  | forest _ hOutcome hFlags =>
      refine portsFit_outcome _ (Forest.length_of_evaluate hOutcome).1 ?_
      rw [← hFlags.length_eq, List.length_range]

/-- The edges of an expandable forest can be marked. -/
theorem Forest.Expandable.exists_gateFlags {forest : Forest} (h : forest.Expandable)
    (input : List Float) : ∃ flags, forest.GateFlags input flags := by
  refine exists_forall₂ fun number hNumber => ?_
  obtain ⟨index, decision, hNumbers⟩ := h.numbered number (List.mem_range.mp hNumber)
  by_cases hGated : forest.Gated input index ∧ forest.Decides input index decision
  · exact ⟨true, index, decision, hNumbers, by simp [hGated]⟩
  · exact ⟨false, index, decision, hNumbers, by simp [hGated]⟩

/-- The edges of an expandable forest are marked in one way. -/
theorem Forest.GateFlags.unique {forest : Forest} (hForest : forest.Expandable)
    {input : List Float} {flags others : List Bool} (h : forest.GateFlags input flags)
    (hOther : forest.GateFlags input others) : others = flags := by
  have hLength : others.length = flags.length := hOther.length_eq.symm.trans h.length_eq
  refine List.ext_getElem hLength fun number hLeft hRight => ?_
  have hNumber : number < forest.edgeCount := by
    rw [← List.length_range (n := forest.edgeCount), h.length_eq]
    exact hRight
  obtain ⟨index, decision, hNumbers⟩ := hForest.numbered number hNumber
  have hFlag := h.eq_some_true_iff hForest hNumbers
  have hOtherFlag := hOther.eq_some_true_iff hForest hNumbers
  rw [List.getElem?_eq_getElem hRight, Option.some.injEq] at hFlag
  rw [List.getElem?_eq_getElem hLeft, Option.some.injEq] at hOtherFlag
  rw [Bool.eq_iff_iff, hFlag, hOtherFlag]

theorem fits_empty : Evaluation.empty.Fits [] :=
  .nil

theorem GatedRun.fits (hRun : GatedRun vector seen later last)
    (hTyped : TypedSequence (nodes ++ later)) (hFits : seen.Fits nodes) :
    last.Fits (nodes ++ later) := by
  induction hRun generalizing nodes with
  | nil => simpa using hFits
  | cons hPorts _ ih =>
      obtain ⟨hNode, hStandard⟩ := hTyped.node_of_append_cons
      rw [List.append_cons] at hTyped ⊢
      exact ih hTyped (hFits.push (hPorts.portsFit hNode hStandard hFits))

theorem GatedRun.isPrefix (hRun : GatedRun vector seen later last) :
    seen.values.toList <+: last.values.toList := by
  induction hRun with
  | nil => exact List.prefix_refl _
  | cons _ _ ih =>
      rw [Evaluation.toList_push] at ih
      exact (List.prefix_append _ _).trans ih

/-- A run over a row of nodes can be cut anywhere. -/
theorem GatedRun.split {first : List Node} (hRun : GatedRun vector seen (first ++ later) last) :
    ∃ middle, GatedRun vector seen first middle ∧ GatedRun vector middle later last := by
  induction first generalizing seen with
  | nil => exact ⟨seen, .nil, hRun⟩
  | cons node first ih =>
      cases hRun with
      | cons hPorts hRest =>
          obtain ⟨middle, hFirst, hLater⟩ := ih hRest
          exact ⟨middle, .cons hPorts hFirst, hLater⟩

/-- Typed nodes with expandable forests can be run behind others for vectors of the width
of their inputs. -/
theorem TypedSequence.exists_gatedRun (hTyped : TypedSequence (nodes ++ later))
    (hForests : ExpandableForests later) (hCovered : CoveredForests later)
    (hFits : seen.Fits nodes)
    (hInputs : ∀ size, Node.input size ∈ later → vector.length = size) :
    ∃ last, GatedRun vector seen later last := by
  induction later generalizing nodes seen with
  | nil => exact ⟨seen, .nil⟩
  | cons node later ih =>
      obtain ⟨hNode, hStandard⟩ := hTyped.node_of_append_cons
      have hPorts : ∃ ports, GatedPorts vector seen node ports := by
        have hFirst : ∀ input ensemble, node = .forest input ensemble →
            ensemble.Expandable ∧ ensemble.ReadsBelow input.length := by
          rintro input ensemble rfl
          exact ⟨hForests input ensemble (List.mem_cons_self ..),
            hCovered input ensemble (List.mem_cons_self ..)⟩
        rcases hNode.computes_or_fails hStandard hFirst hFits vector with
          ⟨⟨ports, hPorts⟩, _⟩ | ⟨size, rfl, hSize, _⟩
        · by_cases hForest : node.isForest = true
          · cases node with
            | forest input ensemble =>
                obtain ⟨numbers, outcome, hNumbers, hOutcome, _⟩ :=
                  Node.compute_forest_eq_ok_iff.mp hPorts
                obtain ⟨flags, hFlags⟩ := (hFirst input ensemble rfl).1.exists_gateFlags numbers
                exact ⟨_, .forest hNumbers hOutcome hFlags⟩
            | _ => cases hForest
          · exact ⟨ports, .elementary (Bool.not_eq_true _ ▸ hForest) hPorts⟩
        · exact absurd (hInputs size (List.mem_cons_self ..)) hSize
      obtain ⟨ports, hPorts⟩ := hPorts
      rw [List.append_cons] at hTyped
      obtain ⟨last, hLast⟩ := ih hTyped
        (fun input ensemble hMem => hForests input ensemble (List.mem_cons_of_mem _ hMem))
        (fun input ensemble hMem => hCovered input ensemble (List.mem_cons_of_mem _ hMem))
        (hFits.push (hPorts.portsFit hNode hStandard hFits))
        (fun size hMem => hInputs size (List.mem_cons_of_mem _ hMem))
      exact ⟨last, .cons hPorts hLast⟩

/-! ## Simulation -/

theorem shows_start (vector : List Float) (seen : Evaluation) (options : RebuildOptions) :
    Shows vector seen (start options) := by
  rintro old new value ⟨selection, hSelection, _⟩ _
  simp [start] at hSelection

/-- Linked selections are read as the values of the evaluation. -/
theorem Shows.reads (h : Shows vector seen before) (hNew : Evaluates before.emitted vector)
    {old new : Selection} {values : List Value} (hFollows : Follows before.links old new)
    (hRead : seen.read old = .ok values) : Reads before.emitted vector new values := by
  obtain ⟨hTyped, renamed, hRenamed⟩ := hNew
  rw [Evaluation.read_eq_ok_iff] at hRead
  refine ⟨hTyped, renamed, hRenamed, Evaluation.read_eq_ok_iff.mpr ?_⟩
  induction hFollows generalizing values with
  | nil =>
      cases hRead
      exact .nil
  | cons hLinked _ ih =>
      cases hRead with
      | cons hValue hLater =>
          cases Evaluation.read_eq_ok_iff.mp ((h _ _ _ hLinked hValue).read hRenamed) with
          | cons hFirst _ => exact .cons hFirst (ih hLater)

/-- What a node computes with gated edges is read through the links of its ports. -/
theorem Replaces.reads_gated (hLinked : Linked nodes before) (hTyped : node.WellTyped nodes)
    (hStandard : node.isStandard = true) (hReplaces : Replaces nodes node before after)
    (hShows : Shows vector seen before) (hAfter : Evaluates after.emitted vector)
    (hFits : seen.Fits nodes) (hPorts : GatedPorts vector seen node ports) {port : Nat}
    {values : List Value} (hValues : ports[port]? = some values) :
    ∃ selection, after.links[(⟨nodes.length, port⟩ : OutputRef)]? = some selection ∧
      Reads after.emitted vector selection values := by
  obtain ⟨more, hEmitted, _⟩ := hReplaces.emitted
  have hBefore : Evaluates before.emitted vector := by
    rw [hEmitted] at hAfter
    exact hAfter.of_append
  cases hReplaces with
  | copied hElementary _ _ hCopied =>
      cases hPorts with
      | forest => cases hElementary
      | elementary _ hComputed =>
          refine hCopied.reads_of_inputs hTyped hStandard hAfter hFits (fun input hInput => ?_)
            hComputed hValues
          have hType := hTyped.inputs input hInput
          obtain ⟨read, hRead, _⟩ := hFits.exists_read hType
          exact ⟨read, hRead, hShows.reads hBefore (hLinked.follows hType).1 hRead⟩
  | expanded _ hForest hFollows hExpanded =>
      cases hPorts with
      | elementary hElementary => cases hElementary
      | @forest _ _ numbers outcome flags hNumbers hOutcome hFlags =>
          have hFeatures := hShows.reads hBefore hFollows
            (Evaluation.readReals_eq_ok_iff.mp hNumbers)
          obtain ⟨walks, others, hWalked, hOthers, hOutput, hTrees, hEdges⟩ :=
            hExpanded.reads hFeatures
          obtain ⟨same, hSame, rfl⟩ := Forest.evaluate_eq_ok_iff.mp hOutcome
          -- The walks and the marks of gated edges are determined by the numbers.
          obtain rfl := hWalked.unique hSame
          obtain rfl := hOthers.unique hForest.1 hFlags
          obtain ⟨hFirst, hSecond, hThird⟩ := hExpanded.linked
          rcases port with _ | _ | _ | _
          · cases hValues
            exact ⟨_, hFirst, hOutput⟩
          · cases hValues
            exact ⟨_, hSecond, hTrees⟩
          · cases hValues
            exact ⟨_, hThird, hEdges⟩
          · cases hValues

/-- A rebuilt node shows what it computes with gated edges, and the others still do. -/
theorem Shows.step (hShows : Shows vector seen before) (hLinked : Linked nodes before)
    (hTyped : node.WellTyped nodes) (hStandard : node.isStandard = true)
    (hReplaces : Replaces nodes node before after) (hAfter : Evaluates after.emitted vector)
    (hFits : seen.Fits nodes) (hPorts : GatedPorts vector seen node ports) :
    Shows vector (seen.push ports) after := by
  rintro old new value ⟨selection, hSelection, hNew⟩ hValue
  have hLength : seen.values.toList.length = nodes.length := hFits.length_eq
  rcases Evaluation.value?_push_iff.mp hValue with hBefore | ⟨hLast, values, hValues, hElement⟩
  · have hOther : old.output.node ≠ nodes.length := by
      rw [Evaluation.value?_eq_toList] at hBefore
      obtain ⟨found, hFound, _⟩ := Option.bind_eq_some_iff.mp hBefore
      have hBound := (List.getElem?_eq_some_iff.mp hFound).1
      omega
    obtain ⟨more, hEmitted, _⟩ := hReplaces.emitted
    rw [hReplaces.kept hOther] at hSelection
    rw [hEmitted] at hAfter ⊢
    exact (hShows old new value ⟨selection, hSelection, hNew⟩ hBefore).append_nodes hAfter
  · obtain ⟨linked, hLink, hReads⟩ := hReplaces.reads_gated hLinked hTyped hStandard hShows
      hAfter hFits hPorts hValues
    rw [← hLength, ← hLast, hSelection] at hLink
    cases hLink
    obtain ⟨read, hRead, hOne⟩ := hReads.element hNew
    rw [hElement] at hRead
    cases hRead
    exact hOne

/-- Rebuilt nodes show what they compute with gated edges. -/
theorem Rebuilds.shows (h : Rebuilds nodes later before after)
    (hTyped : TypedSequence (nodes ++ later)) (hLinked : Linked nodes before)
    (hFits : seen.Fits nodes) (hShows : Shows vector seen before)
    (hAfter : Evaluates after.emitted vector) (hRun : GatedRun vector seen later last) :
    Shows vector last after := by
  induction h generalizing seen with
  | nil =>
      cases hRun
      exact hShows
  | cons hReplaces hRest ih =>
      cases hRun with
      | cons hPorts hLater =>
          obtain ⟨hNode, hStandard⟩ := hTyped.node_of_append_cons
          obtain ⟨more, hMore⟩ := hRest.exists_emitted
          have hMiddle := hAfter
          rw [hMore] at hMiddle
          rw [List.append_cons] at hTyped
          exact ih hTyped (hLinked.step hStandard hReplaces)
            (hFits.push (hPorts.portsFit hNode hStandard hFits))
            (hShows.step hLinked hNode hStandard hReplaces hMiddle.of_append hFits hPorts)
            hAfter hLater

end Steps

/-! ## Named outputs -/

section Outputs

variable {options : RebuildOptions} {old new : Graph} {vector : List Float} {seen : Evaluation}

/-- A gated run computes all that is named. -/
theorem GatedRun.exists_read (hRun : GatedRun vector .empty old.nodes.toList seen)
    (hOld : old.Sound) {entry : String × Selection} (hEntry : entry ∈ old.outputs) :
    ∃ values, seen.read entry.2 = .ok values := by
  have hFits := @GatedRun.fits _ _ _ [] _ hRun hOld.typed fits_empty
  have hElements : ∀ element ∈ entry.2, ∃ value, seen.value? element = some value := by
    intro element hElement
    obtain ⟨type, hType⟩ := hOld.declared entry hEntry element hElement
    obtain ⟨value, hValue, _⟩ := hFits.exists_value hType
    exact ⟨value, hValue⟩
  obtain ⟨values, hValues⟩ := exists_forall₂ hElements
  exact ⟨values, Evaluation.read_eq_ok_iff.mpr hValues⟩

/-- A pass computes for every named output what the graph computes with gated edges. -/
theorem Passes.computeOutput_gated (h : Passes options old new) (hOld : old.Sound)
    (hEvaluates : Evaluates old.nodes.toList vector)
    (hRun : GatedRun vector .empty old.nodes.toList seen) {entry : String × Selection}
    (hEntry : entry ∈ old.outputs) {values : List Value} (hRead : seen.read entry.2 = .ok values) :
    new.computeOutput vector entry.1 = .ok values := by
  have hNew := (h.sound hOld).1
  have hAfter := (h.evaluates_iff hOld).mp hEvaluates
  obtain ⟨state, hRebuilds, rfl⟩ := h
  have hLinked := hRebuilds.linked (fun node hNode => hOld.typed.isStandard_of_mem hNode)
    (linked_start options)
  have hShows := hRebuilds.shows hOld.typed (linked_start options) fits_empty
    (shows_start vector .empty options) hAfter hRun
  have hFollows := (hLinked.follows_declared (hOld.declared entry hEntry)).1
  exact (hNew.computeOutput_eq_ok_iff (List.mem_map_of_mem hEntry)).mpr
    (hShows.reads hAfter hFollows hRead)

/-- So does an expansion, as a further pass finds no forest. -/
theorem Expands.computeOutput_gated (h : Expands options old new) (hOld : old.Sound)
    (hEvaluates : Evaluates old.nodes.toList vector)
    (hRun : GatedRun vector .empty old.nodes.toList seen) {entry : String × Selection}
    (hEntry : entry ∈ old.outputs) {values : List Value} (hRead : seen.read entry.2 = .ok values) :
    new.computeOutput vector entry.1 = .ok values := by
  obtain ⟨rebuilt, hPass, rfl | hSecond⟩ := h
  · exact hPass.computeOutput_gated hOld hEvaluates hRun hEntry hRead
  · obtain ⟨hSound, hElementary, _⟩ := hPass.sound hOld
    exact hSecond.computeOutput_of_elementary hSound hElementary
      (hPass.computeOutput_gated hOld hEvaluates hRun hEntry hRead)

end Outputs

end ForestGraph
