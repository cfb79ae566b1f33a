import ForestGraph.Proofs.Passes

/-!
# Expanded graphs mean the same

An expansion is one pass that rebuilds everything, and at most one more that only
copies.  Both keep the named outputs, the inputs that make an evaluation fail, and
all values, as long as the input enters the nodes of the forests over their last
edges; it always does if the forests have been checked.
-/

namespace ForestGraph

open Rebuild

/-! ## Agreement -/

namespace Graph

/-- The same names with selections of the same lengths. -/
def SameOutputs (graph other : Graph) : Prop :=
  other.outputs.map (fun entry => (entry.1, entry.2.length)) =
    graph.outputs.map (fun entry => (entry.1, entry.2.length))

/-- Both graphs can be evaluated for a vector or neither, and if they can, every named
output of the first has the same values in both. -/
structure AgreesOn (graph other : Graph) (vector : List Float) : Prop where
  evaluates : (∃ known, graph.evaluate vector = .ok known) ↔
    ∃ known, other.evaluate vector = .ok known
  values : ∀ known, graph.evaluate vector = .ok known → ∀ entry ∈ graph.outputs,
    ∃ values, graph.computeOutput vector entry.1 = .ok values ∧
      other.computeOutput vector entry.1 = .ok values

variable {graph other third : Graph} {vector : List Float}

theorem SameOutputs.trans (h : graph.SameOutputs other) (hThird : other.SameOutputs third) :
    graph.SameOutputs third :=
  Eq.trans hThird h

theorem AgreesOn.refl (h : graph.Sound) : graph.AgreesOn graph vector := by
  refine ⟨Iff.rfl, fun known hKnown entry hEntry => ?_⟩
  obtain ⟨values, hValues⟩ :=
    h.named.exists_computeOutput hKnown (h.ordered.find?_of_mem hEntry)
  exact ⟨values, hValues, hValues⟩

theorem AgreesOn.trans (h : graph.AgreesOn other vector) (hOutputs : graph.SameOutputs other)
    (hThird : other.AgreesOn third vector) : graph.AgreesOn third vector := by
  refine ⟨h.evaluates.trans hThird.evaluates, fun known hKnown entry hEntry => ?_⟩
  obtain ⟨values, hValues, hSame⟩ := h.values known hKnown entry hEntry
  obtain ⟨renamed, hRenamed⟩ := h.evaluates.mp ⟨known, hKnown⟩
  -- The middle graph names the same output, maybe with other elements.
  have hNamed : (entry.1, entry.2.length) ∈
      other.outputs.map (fun entry => (entry.1, entry.2.length)) := by
    rw [hOutputs]
    exact List.mem_map_of_mem hEntry
  obtain ⟨found, hFound, hName⟩ := List.mem_map.mp hNamed
  obtain ⟨others, hOthers, hLast⟩ := hThird.values renamed hRenamed found hFound
  rw [(Prod.mk.inj hName).1] at hOthers hLast
  rw [hSame] at hOthers
  cases hOthers
  exact ⟨values, hValues, hLast⟩

/-- A named output is computed by reading its selection. -/
theorem Sound.computeOutput_eq_ok_iff (h : graph.Sound) {name : String} {selection : Selection}
    (hEntry : (name, selection) ∈ graph.outputs) {values : List Value} :
    graph.computeOutput vector name = .ok values ↔
      Reads graph.nodes.toList vector selection values := by
  have hOutput : graph.output? name = some selection := h.ordered.find?_of_mem hEntry
  rw [Graph.computeOutput_eq_ok_iff, hOutput]
  simp only [Option.some.injEq, exists_eq_left']
  exact ⟨fun hReads => ⟨h.typed, hReads⟩, fun hReads => hReads.2⟩

end Graph

/-! ## Passes -/

/-- Valid forests are entered over last edges, as there is only one edge to a node. -/
theorem ValidForests.entersLast {nodes : List Node} (h : ValidForests nodes) (known : Evaluation) :
    ∀ node ∈ nodes, node.EntersLast known := by
  rintro node hMem input ensemble numbers rfl _
  exact Forest.Unshared.entersLast (Forest.validate_eq_ok_iff.mp (h input ensemble hMem)).unshared

/-- Valid forests can be rebuilt under any options, if their inputs have every feature
that they read. -/
theorem ValidForests.acceptable {nodes : List Node} (h : ValidForests nodes)
    (hCovered : CoveredForests nodes) (options : RebuildOptions) :
    ∀ node ∈ nodes, node.Acceptable options := by
  rintro node hMem input ensemble rfl
  have hValid := h input ensemble hMem
  exact ⟨fun _ => hValid, (Forest.validate_eq_ok_iff.mp hValid).expandable,
    hCovered input ensemble hMem⟩

namespace Passes

variable {options : RebuildOptions} {old new : Graph} {vector : List Float}

theorem sameOutputs (h : Passes options old new) (hOld : old.Sound) : old.SameOutputs new := by
  obtain ⟨state, hRebuilds, rfl⟩ := h
  have hLinked := hRebuilds.linked (fun node hNode => hOld.typed.isStandard_of_mem hNode)
    (linked_start options)
  unfold Graph.SameOutputs
  simp only [NamedSelections.follow, List.map_map]
  refine List.map_congr_left fun entry hEntry => ?_
  have hFollows := (hLinked.follows_declared (hOld.declared entry hEntry)).1
  exact congrArg (Prod.mk entry.1) hFollows.length_eq.symm

/-- The rebuilt graph is evaluated on the same vectors. -/
theorem evaluates_iff (h : Passes options old new) (hOld : old.Sound) :
    Evaluates old.nodes.toList vector ↔ Evaluates new.nodes.toList vector := by
  obtain ⟨hNew, hElementary, hInputs⟩ := h.sound hOld
  have hForests : ExpandableForests old.nodes.toList :=
    fun input ensemble hMem => (h.acceptable _ hMem input ensemble rfl).2.1
  have hCovered : CoveredForests old.nodes.toList :=
    fun input ensemble hMem => (h.acceptable _ hMem input ensemble rfl).2.2
  have hNone := (validForests_of_elementary hElementary).expandable
  rw [hOld.typed.evaluates_iff hForests hCovered,
    hNew.typed.evaluates_iff hNone (coveredForests_of_elementary hElementary)]
  simp only [hInputs]

/-- A named output of closed ports has the same values in the rebuilt graph. -/
theorem exists_computeOutput (h : Passes options old new) (hOld : old.Sound) {known : Evaluation}
    (hKnown : old.evaluate vector = .ok known) {ports : OutputRef → Prop}
    (hClosed : ClosedPorts old.nodes.toList known ports) {entry : String × Selection}
    (hEntry : entry ∈ old.outputs) (hPorts : ∀ element ∈ entry.2, ports element.output) :
    ∃ values, old.computeOutput vector entry.1 = .ok values ∧
      new.computeOutput vector entry.1 = .ok values := by
  obtain ⟨values, hValues, _⟩ := (Graph.AgreesOn.refl hOld).values known hKnown entry hEntry
  refine ⟨values, hValues, ?_⟩
  have hOldReads := (hOld.computeOutput_eq_ok_iff hEntry).mp hValues
  have hAfter := (h.evaluates_iff hOld).mp ⟨hOld.typed, known, hKnown⟩
  obtain ⟨hNew, _, _⟩ := h.sound hOld
  obtain ⟨state, hRebuilds, rfl⟩ := h
  have hStandard := fun node hNode => @TypedSequence.isStandard_of_mem _ node hOld.typed hNode
  have hStart := linked_start options
  have hLinked := hRebuilds.linked hStandard hStart
  have hMirrors := hRebuilds.mirrors hStandard hStart (mirrors_start options) hAfter hKnown hClosed
  have hFollows := (hLinked.follows_declared (hOld.declared entry hEntry)).1
  exact (hNew.computeOutput_eq_ok_iff (List.mem_map_of_mem hEntry)).mpr
    (hMirrors.reads hAfter hPorts hFollows hOldReads)

/-- The rebuilt graph agrees with the old one, if the forests of the old one are entered
over last edges. -/
theorem agreesOn (h : Passes options old new) (hOld : old.Sound)
    (hEnters : ∀ known, old.evaluate vector = .ok known →
      ∀ node ∈ old.nodes.toList, node.EntersLast known) : old.AgreesOn new vector := by
  have hEvaluates := @h.evaluates_iff _ _ _ vector hOld
  obtain ⟨hNew, _, _⟩ := h.sound hOld
  refine ⟨?_, fun known hKnown entry hEntry => ?_⟩
  · simp only [Evaluates, hOld.typed, hNew.typed, true_and] at hEvaluates
    exact hEvaluates
  · have hClosed : ClosedPorts old.nodes.toList known fun _ => True := fun output node _ hNode =>
      ⟨fun _ _ _ _ => trivial, fun _ => hEnters known hKnown node (List.mem_of_getElem? hNode)⟩
    exact h.exists_computeOutput hOld hKnown hClosed hEntry fun _ _ => trivial

/-- Behind a graph without forests nothing can disagree. -/
theorem agreesOn_of_elementary (h : Passes options old new) (hOld : old.Sound)
    (hElementary : ∀ node ∈ old.nodes.toList, node.isForest = false) (vector : List Float) :
    old.AgreesOn new vector :=
  h.agreesOn hOld fun known _ => (validForests_of_elementary hElementary).entersLast known

/-- Behind a graph without forests, what is computed stays. -/
theorem computeOutput_of_elementary (h : Passes options old new) (hOld : old.Sound)
    (hElementary : ∀ node ∈ old.nodes.toList, node.isForest = false) {name : String}
    {values : List Value} (hOutput : old.computeOutput vector name = .ok values) :
    new.computeOutput vector name = .ok values := by
  obtain ⟨selection, hName, known, hKnown, _⟩ := Graph.computeOutput_eq_ok_iff.mp hOutput
  obtain ⟨others, hBefore, hAfter⟩ := (h.agreesOn_of_elementary hOld hElementary vector).values
    known hKnown _ (NamedSelections.mem_of_find? hName)
  rw [hOutput] at hBefore
  cases hBefore
  exact hAfter

end Passes

/-! ## Expansions -/

/-- A graph made by one pass, or by another pass from the result of the first. -/
def Expands (options : RebuildOptions) (old new : Graph) : Prop :=
  ∃ first, Passes options old first ∧ (new = first ∨ Passes options first new)

namespace Expands

variable {options : RebuildOptions} {old new : Graph}

theorem acceptable (h : Expands options old new) :
    ∀ node ∈ old.nodes.toList, node.Acceptable options := by
  obtain ⟨first, hFirst, _⟩ := h
  exact hFirst.acceptable

/-- No forest is left, and the inputs are those of the old graph. -/
theorem sound (h : Expands options old new) (hOld : old.Sound) :
    new.Sound ∧ (∀ node ∈ new.nodes.toList, node.isForest = false) ∧
      ∀ size, Node.input size ∈ new.nodes.toList ↔ Node.input size ∈ old.nodes.toList := by
  obtain ⟨first, hFirst, rfl | hSecond⟩ := h
  · exact hFirst.sound hOld
  · obtain ⟨hSound, _, hInputs⟩ := hFirst.sound hOld
    obtain ⟨hNew, hElementary, hSame⟩ := hSecond.sound hSound
    exact ⟨hNew, hElementary, fun size => (hSame size).trans (hInputs size)⟩

theorem sameOutputs (h : Expands options old new) (hOld : old.Sound) : old.SameOutputs new := by
  obtain ⟨first, hFirst, rfl | hSecond⟩ := h
  · exact hFirst.sameOutputs hOld
  · exact (hFirst.sameOutputs hOld).trans (hSecond.sameOutputs (hFirst.sound hOld).1)

/-- The expanded graph agrees with the old one, if the forests of the old one are entered
over last edges. -/
theorem agreesOn (h : Expands options old new) (hOld : old.Sound) {vector : List Float}
    (hEnters : ∀ known, old.evaluate vector = .ok known →
      ∀ node ∈ old.nodes.toList, node.EntersLast known) : old.AgreesOn new vector := by
  obtain ⟨first, hFirst, rfl | hSecond⟩ := h
  · exact hFirst.agreesOn hOld hEnters
  · obtain ⟨hSound, hElementary, _⟩ := hFirst.sound hOld
    exact (hFirst.agreesOn hOld hEnters).trans (hFirst.sameOutputs hOld)
      (hSecond.agreesOn_of_elementary hSound hElementary vector)

end Expands

section Expansion

variable {old new : Graph} {before after : Rebuild}

/-- A graph that the last pass only copied is the result. -/
theorem expandMore_unchanged (passes : Nat) (graph : Graph) :
    expandMore passes (graph, false) = pure graph := by
  cases passes <;> rfl

/-- A pass over a graph without forests changes nothing. -/
theorem Graph.Sound.unchanged_of_pass (hOld : old.Sound)
    (hElementary : ∀ node ∈ old.nodes.toList, node.isForest = false) {changed : Bool}
    (h : Succeeds (pass expandNode old) before (new, changed) after) : changed = false := by
  obtain ⟨_, hChanged, _⟩ := hOld.of_pass h
  rw [hChanged, List.any_eq_false]
  exact fun node hNode => by simp [hElementary node hNode]

/-- Behind a pass that left no forest, at most one more pass is made. -/
theorem Graph.Sound.of_expandMore (hOld : old.Sound)
    (hElementary : ∀ node ∈ old.nodes.toList, node.isForest = false) {passes : Nat}
    {changed : Bool} (h : Succeeds (expandMore passes (old, changed)) before new after) :
    new = old ∨ Passes before.options old new := by
  match passes, changed with
  | 0, _ => exact .inl (succeeds_pure_iff.mp h).1
  | _ + 1, false => exact .inl (succeeds_pure_iff.mp h).1
  | passes + 1, true =>
      obtain ⟨⟨next, more⟩, middle, hPass, hMore⟩ := succeeds_bind_iff.mp h
      obtain ⟨hNext, _⟩ := hOld.of_pass hPass
      -- There was no forest to expand, so the loop ends behind this pass.
      obtain rfl := hOld.unchanged_of_pass hElementary hPass
      rw [expandMore_unchanged] at hMore
      obtain ⟨rfl, _⟩ := succeeds_pure_iff.mp hMore
      exact .inr hNext

theorem Graph.Sound.exists_expandMore (hOld : old.Sound)
    (hElementary : ∀ node ∈ old.nodes.toList, node.isForest = false) (passes : Nat)
    (changed : Bool) :
    ∃ new after, Succeeds (expandMore passes (old, changed)) before new after := by
  match passes, changed with
  | 0, _ => exact ⟨old, before, succeeds_pure_iff.mpr ⟨rfl, rfl⟩⟩
  | _ + 1, false => exact ⟨old, before, succeeds_pure_iff.mpr ⟨rfl, rfl⟩⟩
  | passes + 1, true =>
      have hAcceptable := (validForests_of_elementary hElementary).acceptable
        (coveredForests_of_elementary hElementary) before.options
      obtain ⟨next, more, hPass⟩ := hOld.exists_pass hAcceptable
      obtain rfl := hOld.unchanged_of_pass hElementary hPass
      have hRest : Succeeds (expandMore passes (next, false)) (start before.options) next
          (start before.options) := by
        rw [expandMore_unchanged]
        exact succeeds_pure_iff.mpr ⟨rfl, rfl⟩
      exact ⟨next, _, hPass.bind hRest⟩

/-- What a successful expansion makes of a sound graph. -/
theorem Graph.Sound.of_expand (hOld : old.Sound)
    (h : Succeeds (Rebuild.expand old) before new after) : Expands before.options old new := by
  obtain ⟨⟨first, changed⟩, middle, hPass, hRest⟩ := succeeds_bind_iff.mp h
  obtain ⟨state, same, hGet, hMore⟩ := succeeds_bind_iff.mp hRest
  obtain ⟨rfl, rfl⟩ := succeeds_get_iff.mp hGet
  obtain ⟨hFirst, _, rfl⟩ := hOld.of_pass hPass
  obtain ⟨hSound, hElementary, _⟩ := hFirst.sound hOld
  have hLast := hSound.of_expandMore hElementary hMore
  exact ⟨first, hFirst, hLast⟩

/-- An expansion succeeds if all nodes are acceptable. -/
theorem Graph.Sound.exists_expand (hOld : old.Sound)
    (hAcceptable : ∀ node ∈ old.nodes.toList, node.Acceptable before.options) :
    ∃ new after, Succeeds (Rebuild.expand old) before new after := by
  obtain ⟨first, changed, hPass⟩ := hOld.exists_pass hAcceptable
  obtain ⟨hFirst, _⟩ := hOld.of_pass hPass
  obtain ⟨hSound, hElementary, _⟩ := hFirst.sound hOld
  obtain ⟨new, after, hMore⟩ := @Graph.Sound.exists_expandMore first (start before.options)
    hSound hElementary (before.options.maxPasses - 1) changed
  exact ⟨new, after, hPass.bind (Succeeds.bind (succeeds_get_iff.mpr ⟨rfl, rfl⟩) hMore)⟩

end Expansion

/-! ## Checked forests -/

/-- What is known of the forests of a graph that was expanded. -/
theorem Graph.Built.of_expand {graph result : Graph} (hGraph : graph.Built)
    {before after : Rebuild} (h : Succeeds (Rebuild.expand graph) before result after) :
    (before.options.checkForests = true → ValidForests graph.nodes.toList) ∧
      CoveredForests graph.nodes.toList := by
  have hAcceptable := (hGraph.sound.of_expand h).acceptable
  exact ⟨fun hChecks input ensemble hMem => (hAcceptable _ hMem input ensemble rfl).1 hChecks,
    fun input ensemble hMem => (hAcceptable _ hMem input ensemble rfl).2.2⟩

/-- A forest that reads the values of another, and negated edge indicators of both. -/
def Graph.stackedForests : Graph where
  nodes := #[.input 2,
    .forest [⟨⟨0, 0⟩, 0⟩, ⟨⟨0, 0⟩, 1⟩] Forest.twoTrees,
    .forest [⟨⟨1, 1⟩, 1⟩, ⟨⟨1, 0⟩, 0⟩] Forest.twoTrees,
    .not [⟨⟨1, 2⟩, 5⟩, ⟨⟨2, 2⟩, 0⟩, ⟨⟨1, 2⟩, 5⟩]]
  outputs := [("flags", [⟨⟨3, 0⟩, 2⟩, ⟨⟨3, 0⟩, 1⟩]), ("total", [⟨⟨2, 0⟩, 0⟩])]

theorem Graph.built_stackedForests : Graph.stackedForests.Built := by
  have hInput : Built ⟨#[.input 2], []⟩ := @Built.add _ _ (.input 2) 0 .empty rfl rfl
  have hFirst := @Built.add _ _ (.forest [⟨⟨0, 0⟩, 0⟩, ⟨⟨0, 0⟩, 1⟩] Forest.twoTrees) 1
    hInput rfl rfl
  have hSecond := @Built.add _ _ (.forest [⟨⟨1, 1⟩, 1⟩, ⟨⟨1, 0⟩, 0⟩] Forest.twoTrees) 2
    hFirst rfl rfl
  have hNot := @Built.add _ _ (.not [⟨⟨1, 2⟩, 5⟩, ⟨⟨2, 2⟩, 0⟩, ⟨⟨1, 2⟩, 5⟩]) 3 hSecond rfl rfl
  have hTotal := @Built.addOutput _ _ "total" [⟨⟨2, 0⟩, 0⟩] hNot rfl
  exact @Built.addOutput _ _ "flags" [⟨⟨3, 0⟩, 2⟩, ⟨⟨3, 0⟩, 1⟩] hTotal rfl

theorem Graph.validForests_stackedForests : ValidForests Graph.stackedForests.nodes.toList := by
  intro input ensemble hMem
  simp only [stackedForests, List.mem_cons, List.not_mem_nil, or_false] at hMem
  rcases hMem with h | h | h | h
  · cases h
  · cases h
    rfl
  · cases h
    rfl
  · cases h

theorem Graph.boundedForests_stackedForests :
    BoundedForests Graph.stackedForests.nodes.toList := by
  intro input ensemble hMem
  simp only [stackedForests, List.mem_cons, List.not_mem_nil, or_false] at hMem
  rcases hMem with h | h | h | h
  · cases h
  · cases h
    decide
  · cases h
    decide
  · cases h

theorem Graph.coveredForests_stackedForests :
    CoveredForests Graph.stackedForests.nodes.toList :=
  built_stackedForests.sound.typed.coveredForests boundedForests_stackedForests

/-- A rebuild that an earlier failure has left in place. -/
def Rebuild.interrupted : Rebuild :=
  ⟨⟨1, true⟩, Graph.stackedForests, Std.HashMap.ofList [(⟨3, 0⟩, [⟨⟨0, 0⟩, 1⟩])]⟩

/-- The graph of an input with one element and a forest that reads the feature of the
largest index, which is accepted as the required dimension of the forest is zero. -/
def Graph.farSighted : Graph :=
  ⟨#[.input 1, .forest [⟨⟨0, 0⟩, 0⟩] Forest.farSighted], []⟩

end ForestGraph
