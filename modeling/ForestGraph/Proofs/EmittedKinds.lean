import Mathlib.Algebra.BigOperators.Group.Multiset.Basic
import ForestGraph.Forest.Document
import ForestGraph.Proofs.EmittedNodes
import ForestGraph.Proofs.PassLimits

/-!
# Kinds of emitted nodes

How many nodes of each kind an expansion adds, whatever the nodes read.  A step of a rebuild
adds a bag of kinds that can be read off the forest: every rule, every predictor and every
edge is paid for once.  Only the constant `false` is shared, so the wiring of one node costs
less once it is there.  For this reason the bags of the wiring are stated with the cost of
the constant on both sides.
-/

namespace ForestGraph

open Rebuild

/-- The kinds of some nodes, each as often as it occurs. -/
def kindsOf (nodes : List Node) : Multiset String :=
  nodes.map Node.kind

@[simp] theorem kindsOf_append (nodes later : List Node) :
    kindsOf (nodes ++ later) = kindsOf nodes + kindsOf later := by
  simp [kindsOf]

theorem kindsOf_singleton (node : Node) : kindsOf [node] = {node.kind} := rfl

namespace Rebuild

/-- A step that, where it succeeds, adds nodes of certain kinds. -/
def Adds {α : Type} (step : RebuildM α) (kinds : Multiset String) : Prop :=
  ∀ ⦃before after : Rebuild⦄ ⦃value : α⦄, Succeeds step before value after →
    kindsOf after.emitted = kindsOf before.emitted + kinds

variable {α β : Type} {kinds more : Multiset String}

/-! ## Sequences -/

theorem adds_pure (value : α) : Adds (pure value) 0 := by
  intro before after result h
  obtain ⟨_, rfl⟩ := succeeds_pure_iff.mp h
  exact (add_zero _).symm

theorem adds_throw (error : Error) : Adds (throw error : RebuildM α) kinds :=
  fun _ _ _ h => absurd h not_succeeds_throw

/-- What the rest adds may depend on the value that it is given. -/
theorem Adds.bind_of {step : RebuildM α} {rest : α → RebuildM β} (h : Adds step kinds)
    (hRest : ∀ {before middle : Rebuild} {value : α}, Succeeds step before value middle →
      Adds (rest value) more) : Adds (step >>= rest) (kinds + more) := by
  intro before after result hRun
  obtain ⟨value, middle, hStep, hLater⟩ := succeeds_bind_iff.mp hRun
  rw [hRest hStep hLater, h hStep, add_assoc]

theorem Adds.bind {step : RebuildM α} {rest : α → RebuildM β} (h : Adds step kinds)
    (hRest : ∀ value, Adds (rest value) more) : Adds (step >>= rest) (kinds + more) :=
  h.bind_of fun {_ _ value} _ => hRest value

/-- A step in front that adds no node. -/
theorem Adds.after_none {step : RebuildM α} {rest : α → RebuildM β} (h : Adds step 0)
    (hRest : ∀ value, Adds (rest value) kinds) : Adds (step >>= rest) kinds := by
  simpa only [zero_add] using h.bind hRest

/-- A step behind that adds no node. -/
theorem Adds.then_none {step : RebuildM α} {rest : α → RebuildM β} (h : Adds step kinds)
    (hRest : ∀ value, Adds (rest value) 0) : Adds (step >>= rest) kinds := by
  simpa only [add_zero] using h.bind hRest

theorem adds_get : Adds (get : RebuildM Rebuild) 0 := by
  intro before after state h
  obtain ⟨_, rfl⟩ := succeeds_get_iff.mp h
  exact (add_zero _).symm

theorem adds_part (selection : Except Error Selection) : Adds (part selection) 0 := by
  cases selection with
  | ok selection => exact adds_pure selection
  | error error => exact adds_throw error

theorem adds_add (node : Node) : Adds (add node) {node.kind} := by
  intro before after index h
  obtain ⟨_, _, rfl⟩ := succeeds_add_iff.mp h
  rw [← kindsOf_singleton, ← kindsOf_append, emitted, Array.toList_push]
  rfl

theorem adds_elements (output : OutputRef) : Adds (elements output) 0 :=
  adds_get.after_none fun state => adds_part (state.graph.elements output)

theorem adds_emit (node : Node) : Adds (emit node) {node.kind} :=
  (adds_add node).then_none fun index => adds_elements ⟨index, 0⟩

end Rebuild

/-! ## Rules, predictors and subtrees -/

def Rule.kind : Rule → RuleKind
  | threshold _ _ => .threshold
  | linear _ => .linear

def Predictor.kind : Predictor → PredictorKind
  | constant _ => .constant
  | linear _ => .linear

/-- The kinds of the nodes that are emitted for a rule. -/
def RuleKind.emittedKinds : RuleKind → Multiset String
  | threshold => {"Constant", "Compare"}
  | linear => {"Constant", "DotProduct", "Constant", "Sum", "Constant", "Compare"}

/-- The kinds of the nodes that are emitted for a predictor. -/
def PredictorKind.emittedKinds : PredictorKind → Multiset String
  | constant => {"Constant"}
  | linear => {"Constant", "DotProduct", "Constant", "Sum"}

/-- An edge costs its predictor, and one more sum if there is a subtree below it. -/
def Edge.emittedKinds (edge : Edge) : Multiset String :=
  edge.predictor.kind.emittedKinds +
    match edge.target with
    | .leaf => 0
    | .interior _ => {"Sum"}

/-- A node costs its edges, its rule, and one selection. -/
def Interior.emittedKinds (node : Interior) : Multiset String :=
  node.onFalse.emittedKinds + (node.onTrue.emittedKinds + (node.rule.kind.emittedKinds + {"Select"}))

theorem Rule.adds_emit (rule : Rule) (features : Selection) :
    Adds (rule.emit features) rule.kind.emittedKinds := by
  intro before after decision h
  rw [h.rule_emission.1, emitted_append, kindsOf_append]
  cases rule <;> rfl

theorem Predictor.adds_emit (predictor : Predictor) (features : Selection) :
    Adds (predictor.emit features) predictor.kind.emittedKinds := by
  intro before after prediction h
  rw [h.predictor_emission.1, emitted_append, kindsOf_append]
  cases predictor <;> rfl

namespace Subtree

end Subtree

/-! ## The wiring -/

namespace Wiring

variable {forest : Forest} {wiring next : Wiring} {before after : Rebuild}

/-- The cost of the constant `false`, once it has been emitted. -/
def neverKinds (wiring : Wiring) : Multiset String :=
  if wiring.never.isSome then {"Constant"} else 0

/-- A root negates its decision, any other node gates both its edges. -/
def wiredKinds (forest : Forest) (index : Nat) : Multiset String :=
  if forest.isRoot index then {"Not"} else {"Multiplexer", "Multiplexer"}

theorem of_emitNever {never : Selection}
    (h : Succeeds wiring.emitNever before (next, never) after) :
    next.never.isSome = true ∧
      kindsOf after.emitted + wiring.neverKinds = kindsOf before.emitted + next.neverKinds := by
  unfold emitNever at h
  cases hCase : wiring.never with
  | some known =>
      rw [hCase] at h
      obtain ⟨hNext, rfl⟩ := succeeds_pure_iff.mp h
      cases hNext
      exact ⟨by rw [hCase]; rfl, rfl⟩
  | none =>
      rw [hCase] at h
      obtain ⟨emitted, middle, hEmit, hDone⟩ := succeeds_bind_iff.mp h
      obtain ⟨hNext, rfl⟩ := succeeds_pure_iff.mp hDone
      cases hNext
      have hAdds := adds_emit (.constant (.booleans [false])) hEmit
      exact ⟨rfl, by simpa [neverKinds, hCase, Node.kind] using hAdds⟩

/-- A node is paid for once, and the constant `false` by the first node that needs it. -/
theorem of_emitNode {index : Nat} {decision onFalse onTrue : Selection}
    (h : Succeeds (emitNode forest wiring index decision) before (next, onFalse, onTrue) after) :
    next.never.isSome = (wiring.never.isSome || !forest.isRoot index) ∧
      kindsOf after.emitted + wiring.neverKinds =
        kindsOf before.emitted + wiredKinds forest index + next.neverKinds := by
  unfold emitNode at h
  unfold wiredKinds
  cases hRoot : forest.isRoot index with
  | true =>
      rw [hRoot] at h
      obtain ⟨negated, middle, hNot, hDone⟩ := succeeds_bind_iff.mp h
      obtain ⟨hNext, rfl⟩ := succeeds_pure_iff.mp hDone
      cases hNext
      refine ⟨(Bool.or_false _).symm, ?_⟩
      rw [adds_emit _ hNot]
      rfl
  | false =>
      rw [hRoot] at h
      cases hReached : wiring.incoming.lookup index with
      | none =>
          rw [hReached] at h
          exact absurd h not_succeeds_throw
      | some reached =>
          rw [hReached] at h
          obtain ⟨⟨wired, never⟩, middle, hNever, h⟩ := succeeds_bind_iff.mp h
          obtain ⟨first, middle1, hFirst, h⟩ := succeeds_bind_iff.mp h
          obtain ⟨second, middle2, hSecond, hDone⟩ := succeeds_bind_iff.mp h
          obtain ⟨hNext, rfl⟩ := succeeds_pure_iff.mp hDone
          cases hNext
          obtain ⟨hSome, hKinds⟩ := of_emitNever hNever
          refine ⟨by rw [hSome, Bool.not_false, Bool.or_true], ?_⟩
          calc kindsOf after.emitted + wiring.neverKinds
            _ = kindsOf middle.emitted + {"Multiplexer"} + {"Multiplexer"} + wiring.neverKinds := by
                rw [adds_emit _ hSecond, adds_emit _ hFirst]
                rfl
            _ = kindsOf middle.emitted + wiring.neverKinds +
                  ({"Multiplexer"} + {"Multiplexer"}) := by ac_rfl
            _ = kindsOf before.emitted + ({"Multiplexer"} + {"Multiplexer"}) +
                  next.neverKinds := by rw [hKinds, add_right_comm]

/-- Recording an edge leaves the constant alone. -/
theorem never_of_record {number : Nat} {edge : Edge} {taken : Selection}
    (h : record forest wiring number edge taken = .ok next) : next.never = wiring.never := by
  obtain ⟨_, _, rfl⟩ := record_eq_ok_iff.mp h
  rfl

/-- The nodes from an index on are paid for one by one.  The constant `false` is there
afterwards if it was before, or if one of the nodes is no root. -/
theorem of_emitAll {index : Nat} {nodes : List (Interior × Subtree)}
    (h : Succeeds (emitAll forest index nodes wiring) before next after) :
    next.never.isSome = (wiring.never.isSome ||
        (List.range' index nodes.length).any fun index => !forest.isRoot index) ∧
      kindsOf after.emitted + wiring.neverKinds = kindsOf before.emitted +
        ((List.range' index nodes.length).map (wiredKinds forest)).sum + next.neverKinds := by
  -- By induction on the nodes, as they are wired from the first to the last.
  induction nodes generalizing index wiring before with
  | nil =>
      obtain ⟨rfl, rfl⟩ := succeeds_pure_iff.mp h
      exact ⟨(Bool.or_false _).symm, by simp⟩
  | cons first behind ih =>
      obtain ⟨node, subtree⟩ := first
      unfold emitAll at h
      obtain ⟨⟨wired, onFalse, onTrue⟩, middle, hNode, h⟩ := succeeds_bind_iff.mp h
      obtain ⟨hNever, hKinds⟩ := of_emitNode hNode
      dsimp only at h
      split at h
      · rename_i known hKnown
        obtain ⟨halfway, hFirst, hSecond⟩ := except_bind_eq_ok_iff.mp hKnown
        have hSame : known.never = wired.never :=
          (never_of_record hSecond).trans (never_of_record hFirst)
        obtain ⟨hLater, hLaterKinds⟩ := ih h
        have hCost : known.neverKinds = wired.neverKinds := by rw [neverKinds, hSame, neverKinds]
        rw [hSame, hNever] at hLater
        rw [List.length_cons, List.range'_succ]
        refine ⟨by rw [hLater, List.any_cons, Bool.or_assoc], ?_⟩
        rw [hCost] at hLaterKinds
        rw [List.map_cons, List.sum_cons]
        -- What the constant costs in between is on both sides.
        refine add_right_cancel (b := wired.neverKinds) ?_
        calc kindsOf after.emitted + wiring.neverKinds + wired.neverKinds
          _ = kindsOf after.emitted + wired.neverKinds + wiring.neverKinds := add_right_comm _ _ _
          _ = kindsOf middle.emitted + wiring.neverKinds +
                ((List.range' (index + 1) behind.length).map (wiredKinds forest)).sum +
                next.neverKinds := by rw [hLaterKinds]; ac_rfl
          _ = _ := by rw [hKinds]; ac_rfl
      · exact absurd h not_succeeds_throw

/-- The kinds of the nodes that the edge indicator of a number of nodes is wired with. -/
def allKinds (forest : Forest) (count : Nat) : Multiset String :=
  ((List.range count).map (wiredKinds forest)).sum +
    if (List.range count).any fun index => !forest.isRoot index then {"Constant"} else 0

end Wiring

/-! ## Forests and graphs -/

/-- The kinds of the nodes that a forest is expanded to. -/
def Forest.emittedKinds (forest : Forest) : Multiset String :=
  (forest.nodes.toList.map Interior.emittedKinds).sum +
    ({"Constant"} + ({"Sum"} + Wiring.allKinds forest forest.nodeCount))

end ForestGraph
