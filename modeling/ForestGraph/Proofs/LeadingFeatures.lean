import ForestGraph.Proofs.BuiltGraphs

/-!
# The features that matter

A forest is evaluated from its leading features alone: whatever follows the required
dimension, and however much follows it, the outcome is the same.  Nothing less would do,
as some rule or predictor fails on every input that is shorter.
-/

namespace ForestGraph

variable {input other : List Float} {size : Nat}

/-! ## Cutting inputs off -/

/-- A covered feature is among the leading ones. -/
theorem feature_take {index : Nat} (h : index < size) (hSize : size ≤ input.length) :
    feature (input.take size) index = feature input index := by
  have hTake : (input.take size)[index]? = some input[index] := by
    rw [List.getElem?_take_of_lt h]
    exact List.getElem?_eq_getElem (by omega)
  rw [feature_eq_ok_iff.mpr hTake]
  exact (feature_eq_ok_iff.mpr (List.getElem?_eq_getElem (by omega))).symm

theorem Affine.apply_take {function : Affine} (h : function.width ≤ size)
    (hSize : size ≤ input.length) : function.apply (input.take size) = function.apply input := by
  have hValue : function.apply input = .ok _ := Affine.apply_eq_ok_iff.mpr ⟨by omega, rfl⟩
  rw [hValue, Affine.apply_eq_ok_iff, List.take_take, Nat.min_eq_left h]
  exact ⟨by rw [List.length_take]; omega, rfl⟩

theorem Rule.holds_take {rule : Rule} (h : Covers size rule.lastFeature?)
    (hSize : size ≤ input.length) : rule.holds (input.take size) = rule.holds input := by
  cases rule with
  | threshold index bound =>
      simp only [holds, feature_take (covers_some_iff.mp h) hSize]
  | linear function => simp only [holds, Affine.apply_take (Affine.covers_iff.mp h) hSize]

theorem Predictor.predict_take {predictor : Predictor} (h : Covers size predictor.lastFeature?)
    (hSize : size ≤ input.length) :
    predictor.predict (input.take size) = predictor.predict input := by
  cases predictor with
  | constant value => rfl
  | linear function => exact Affine.apply_take (Affine.covers_iff.mp h) hSize

/-! ## Inputs that are not told apart -/

/-- Neither the rule nor a predictor of a node tells two inputs apart. -/
structure Interior.SameOn (node : Interior) (input other : List Float) : Prop where
  rule : node.rule.holds input = node.rule.holds other
  predictor : ∀ decision, (node.edge decision).predictor.predict input =
    (node.edge decision).predictor.predict other

/-- A node that a number of features suffices for reads no others. -/
theorem Interior.Suffices.sameOn_take {node : Interior} (h : node.Suffices size)
    (hSize : size ≤ input.length) : node.SameOn (input.take size) input where
  rule := Rule.holds_take h.rule hSize
  predictor decision := Predictor.predict_take (h.predictor decision) hSize

namespace Forest

variable {forest : Forest}

/-- No node of a forest tells two inputs apart. -/
def SameOn (forest : Forest) (input other : List Float) : Prop :=
  ∀ (index : Nat) (node : Interior), forest.nodes[index]? = some node → node.SameOn input other

/-- The same walks are found on such inputs, and the same failures. -/
theorem SameOn.walkFrom_eq (h : forest.SameOn input other) (tree fuel current : Nat) :
    forest.walkFrom tree input fuel current = forest.walkFrom tree other fuel current := by
  induction fuel generalizing current with
  | zero => rfl
  | succ fuel ih =>
      unfold walkFrom
      cases hNode : forest.node current with
      | error error => rfl
      | ok node =>
          have hSame := h current node (node_eq_ok_iff.mp hNode)
          -- The rule leads both to the same edge, and there to the same prediction.
          simp only [bind, Except.bind, hSame.rule, hSame.predictor, ih]

theorem SameOn.evaluate_eq (h : forest.SameOn input other) :
    forest.evaluate input = forest.evaluate other := by
  have hInside : forest.walkInside input = forest.walkInside other := by
    funext tree
    simp only [walkInside, walk, h.walkFrom_eq]
  simp only [evaluate, hInside]

/-- The features behind the required dimension do not matter. -/
theorem evaluate_take (hWords : forest.ReadsBelow Index.largest)
    (hWide : forest.requiredDimension ≤ input.length) :
    forest.evaluate (input.take forest.requiredDimension) = forest.evaluate input := by
  have hReads := (requiredDimension_le_iff hWords).mp (Nat.le_refl _)
  refine SameOn.evaluate_eq fun index node hNode => ?_
  exact (readsBelow_iff.mp hReads index node hNode).sameOn_take hWide

end Forest

/-! ## Features that are needed -/

/-- What is read from inputs has no value on any with fewer features. -/
def FailsBelow {α : Type} (read : List Float → Except Error α) (size : Nat) : Prop :=
  ∀ input : List Float, input.length < size → ∃ error, read input = .error error

/-- A computation that covers a feature has no value without it. -/
theorem failsBelow_of_not_covers {α : Type} {read : List Float → Except Error α}
    {last? : Option Nat}
    (hRead : ∀ input, (∃ value, read input = .ok value) ↔ Covers input.length last?)
    (hNeeds : ¬Covers size last?) : FailsBelow read (size + 1) := by
  intro input hShort
  have hNot : ¬∃ value, read input = .ok value := by
    rw [hRead]
    -- A shorter input would have to cover the feature as well.
    exact fun hCovers => hNeeds fun last hLast => by
      have hBefore := hCovers last hLast
      omega
  cases hResult : read input with
  | error error => exact ⟨error, rfl⟩
  | ok value => exact absurd ⟨value, hResult⟩ hNot

/-- A node that a number of features does not suffice for fails without one more. -/
theorem Interior.failsBelow_of_not_suffices {node : Interior} (h : ¬node.Suffices size) :
    FailsBelow node.rule.holds (size + 1) ∨
      ∃ decision, FailsBelow (node.edge decision).predictor.predict (size + 1) := by
  by_cases hRule : Covers size node.rule.lastFeature?
  · have hPredictor : ∃ decision, ¬Covers size (node.edge decision).predictor.lastFeature? :=
      not_forall.mp fun hAll => h ⟨hRule, hAll⟩
    obtain ⟨decision, hNeeds⟩ := hPredictor
    exact .inr ⟨decision,
      failsBelow_of_not_covers (fun _ => Predictor.exists_predict_iff) hNeeds⟩
  · exact .inl (failsBelow_of_not_covers (fun _ => Rule.exists_holds_iff) hRule)

namespace Forest

variable {forest : Forest}

/-- Some rule or predictor of a forest needs all features of the required dimension. -/
theorem exists_failsBelow (hReads : 0 < forest.requiredDimension) :
    ∃ (index : Nat) (node : Interior), forest.nodes[index]? = some node ∧
      (FailsBelow node.rule.holds forest.requiredDimension ∨
        ∃ decision, FailsBelow (node.edge decision).predictor.predict
          forest.requiredDimension) := by
  obtain ⟨size, hSize⟩ : ∃ size, forest.requiredDimension = size + 1 :=
    ⟨forest.requiredDimension - 1, by omega⟩
  have hLess : ¬forest.ReadsBelow size := by
    intro h
    have hWide := h.requiredDimension_le
    omega
  rw [readsBelow_iff] at hLess
  simp only [not_forall] at hLess
  obtain ⟨index, node, hNode, hNeeds⟩ := hLess
  rw [hSize]
  exact ⟨index, node, hNode, Interior.failsBelow_of_not_suffices hNeeds⟩

/-- A valid forest that does not read the feature of the largest index is evaluated on every
input of the required dimension, inputs that agree up to there have the same outcome, and no
smaller dimension would be enough. -/
theorem evaluate_by_leading (h : forest.validate = .ok ())
    (hWords : forest.ReadsBelow Index.largest) :
    (∀ input : List Float, forest.requiredDimension ≤ input.length →
      ∃ outcome, forest.evaluate input = .ok outcome) ∧
    (∀ input other : List Float, forest.requiredDimension ≤ input.length →
      forest.requiredDimension ≤ other.length →
      input.take forest.requiredDimension = other.take forest.requiredDimension →
      ∃ outcome, forest.evaluate input = .ok outcome ∧ forest.evaluate other = .ok outcome) ∧
    (0 < forest.requiredDimension →
      ∃ (index : Nat) (node : Interior), forest.nodes[index]? = some node ∧
        (FailsBelow node.rule.holds forest.requiredDimension ∨
          ∃ decision, FailsBelow (node.edge decision).predictor.predict
            forest.requiredDimension)) := by
  have hExists : ∀ input : List Float, forest.requiredDimension ≤ input.length →
      ∃ outcome, forest.evaluate input = .ok outcome :=
    fun input hWide => (validate_eq_ok_iff.mp h).expandable.exists_evaluate
      ((requiredDimension_le_iff hWords).mp hWide)
  refine ⟨hExists, fun input other hInput hOther hAgree => ?_, exists_failsBelow⟩
  obtain ⟨outcome, hOutcome⟩ := hExists input hInput
  refine ⟨outcome, hOutcome, ?_⟩
  rw [← evaluate_take hWords hOther, ← hAgree, evaluate_take hWords hInput, hOutcome]

theorem evaluate_by_leading_twoTrees :
    twoTrees.validate = .ok () ∧ twoTrees.ReadsBelow Index.largest ∧
    twoTrees.requiredDimension = 2 ∧
    (∃ outcome, twoTrees.evaluate [0.75, 2] = .ok outcome ∧
      twoTrees.evaluate [0.75, 2, 7] = .ok outcome) ∧
    ∃ (index : Nat) (node : Interior), twoTrees.nodes[index]? = some node ∧
      (FailsBelow node.rule.holds 2 ∨
        ∃ decision, FailsBelow (node.edge decision).predictor.predict 2) := by
  obtain ⟨_, hSame, hNeeded⟩ := @evaluate_by_leading twoTrees rfl (by decide)
  exact ⟨rfl, by decide, by decide, hSame [0.75, 2] [0.75, 2, 7] (by decide) (by decide) rfl,
    hNeeded (by decide)⟩

end Forest

end ForestGraph
