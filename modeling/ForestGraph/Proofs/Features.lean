import ForestGraph.Forest.Basic
import ForestGraph.Proofs.Reading

/-!
# Features that are read

Rules and predictors succeed exactly on inputs that reach behind the last
feature they read.  The required dimension of a forest is the least number of
features that all of its rules and predictors are content with, unless one of
them reads the feature of the largest index, behind which indices start over.
-/

namespace ForestGraph

/-- Whether a number of features includes the last one that is read, if any. -/
def Covers (size : Nat) (last? : Option Nat) : Prop :=
  ∀ last, last? = some last → last < size

theorem covers_none (size : Nat) : Covers size none := by
  intro last hLast
  cases hLast

theorem covers_some_iff {size last : Nat} : Covers size (some last) ↔ last < size := by
  constructor
  · intro h
    exact h last rfl
  · intro h other hOther
    cases hOther
    exact h

namespace Affine

theorem covers_iff {function : Affine} {size : Nat} :
    Covers size function.lastFeature? ↔ function.width ≤ size := by
  unfold lastFeature?
  by_cases hWidth : function.width = 0
  · rw [if_pos hWidth]
    exact ⟨fun _ => by omega, fun _ => covers_none size⟩
  · rw [if_neg hWidth, covers_some_iff]
    omega

/-- An affine function has a value on inputs that are long enough. -/
theorem apply_eq_ok_iff {function : Affine} {input : List Float} {value : Float} :
    function.apply input = .ok value ↔
      function.width ≤ input.length ∧
        value = sequentialSum
          [ForestGraph.dotProduct function.weights (input.take function.width),
            function.bias] := by
  unfold apply
  by_cases hWidth : function.width ≤ input.length
  · rw [if_pos hWidth]
    exact ⟨fun h => ⟨hWidth, (Except.ok.inj h).symm⟩, fun h => congrArg Except.ok h.2.symm⟩
  · rw [if_neg hWidth]
    exact ⟨fun h => (by cases h), fun h => absurd h.1 hWidth⟩

theorem exists_apply_iff {function : Affine} {input : List Float} :
    (∃ value, function.apply input = .ok value) ↔
      Covers input.length function.lastFeature? := by
  rw [covers_iff]
  constructor
  · rintro ⟨value, hValue⟩
    exact (apply_eq_ok_iff.mp hValue).1
  · intro hWidth
    exact ⟨_, apply_eq_ok_iff.mpr ⟨hWidth, rfl⟩⟩

end Affine

theorem feature_eq_ok_iff {input : List Float} {index : Nat} {value : Float} :
    feature input index = .ok value ↔ input[index]? = some value := by
  unfold feature
  cases input[index]? <;> simp

/-- A rule decides on inputs that cover the features it reads. -/
theorem Rule.exists_holds_iff {rule : Rule} {input : List Float} :
    (∃ decision, rule.holds input = .ok decision) ↔ Covers input.length rule.lastFeature? := by
  cases rule with
  | threshold index bound =>
      simp only [holds, lastFeature?, except_bind_eq_ok_iff, feature_eq_ok_iff,
        except_pure_eq_ok_iff, covers_some_iff]
      constructor
      · rintro ⟨decision, value, hValue, _⟩
        exact (List.getElem?_eq_some_iff.mp hValue).1
      · intro hIndex
        exact ⟨_, input[index], List.getElem?_eq_getElem hIndex, rfl⟩
  | linear function =>
      simp only [holds, lastFeature?, except_bind_eq_ok_iff, except_pure_eq_ok_iff]
      -- The comparison with zero never fails, so only the function has to have a value.
      rw [← Affine.exists_apply_iff]
      constructor
      · rintro ⟨_, value, hValue, _⟩
        exact ⟨value, hValue⟩
      · rintro ⟨value, hValue⟩
        exact ⟨_, value, hValue, rfl⟩

/-- A predictor has a value on inputs that cover the features it reads. -/
theorem Predictor.exists_predict_iff {predictor : Predictor} {input : List Float} :
    (∃ value, predictor.predict input = .ok value) ↔
      Covers input.length predictor.lastFeature? := by
  cases predictor with
  | constant value => exact ⟨fun _ => covers_none _, fun _ => ⟨value, rfl⟩⟩
  | linear function => exact Affine.exists_apply_iff

namespace Interior

/-- A number of features that suffices for the rule and both predictors. -/
structure Suffices (node : Interior) (size : Nat) : Prop where
  rule : Covers size node.rule.lastFeature?
  predictor : ∀ decision, Covers size (node.edge decision).predictor.lastFeature?

theorem suffices_iff {node : Interior} {size : Nat} :
    node.Suffices size ↔ ∀ last ∈ node.lastFeatures, last < size := by
  have hMem : ∀ last, last ∈ node.lastFeatures ↔ node.rule.lastFeature? = some last ∨
      node.onFalse.predictor.lastFeature? = some last ∨
      node.onTrue.predictor.lastFeature? = some last := by
    intro last
    simp [lastFeatures, edges, eq_comm]
  simp only [hMem]
  constructor
  · rintro ⟨hRule, hPredictor⟩ last (h | h | h)
    · exact hRule last h
    · exact hPredictor false last h
    · exact hPredictor true last h
  · intro h
    refine ⟨fun last hLast => h last (.inl hLast), fun decision last hLast => ?_⟩
    cases decision with
    | false => exact h last (.inr (.inl hLast))
    | true => exact h last (.inr (.inr hLast))

end Interior

namespace Forest

variable {forest : Forest} {size : Nat}

/-- Inputs of a size have every feature that a rule or predictor reads. -/
def ReadsBelow (forest : Forest) (size : Nat) : Prop :=
  ∀ feature ∈ forest.lastFeatures, feature < size

instance : Decidable (forest.ReadsBelow size) :=
  inferInstanceAs (Decidable (∀ feature ∈ forest.lastFeatures, feature < size))

theorem readsBelow_iff :
    forest.ReadsBelow size ↔
      ∀ (index : Nat) (node : Interior), forest.nodes[index]? = some node →
        node.Suffices size := by
  simp only [ReadsBelow, lastFeatures, List.mem_flatMap, Interior.suffices_iff,
    Array.mem_toList_iff, Array.mem_iff_getElem?]
  constructor
  · intro h index node hNode last hLast
    exact h last ⟨node, ⟨index, hNode⟩, hLast⟩
  · rintro h last ⟨node, ⟨index, hNode⟩, hLast⟩
    exact h index node hNode last hLast

/-- The largest of some numbers is small exactly when all of them are. -/
theorem foldl_max_le_iff {next : Nat → Nat} {features : List Nat} {start : Nat} :
    features.foldl (fun dimension feature => max dimension (next feature)) start ≤ size ↔
      start ≤ size ∧ ∀ feature ∈ features, next feature ≤ size := by
  induction features generalizing start with
  | nil => simp
  | cons feature later ih =>
      rw [List.foldl_cons, ih, List.forall_mem_cons, Nat.max_le, and_assoc]

/-- Inputs with every feature that is read are never too narrow. -/
theorem ReadsBelow.requiredDimension_le (h : forest.ReadsBelow size) :
    forest.requiredDimension ≤ size :=
  foldl_max_le_iff.mpr ⟨Nat.zero_le _, fun feature hFeature =>
    Nat.le_trans (Nat.mod_le _ _) (h feature hFeature)⟩

/-- Unless the feature of the largest index is read, the required dimension is the least
size of inputs with every feature that is read. -/
theorem requiredDimension_le_iff (hWords : forest.ReadsBelow Index.largest) :
    forest.requiredDimension ≤ size ↔ forest.ReadsBelow size := by
  refine ⟨fun h feature hFeature => ?_, ReadsBelow.requiredDimension_le⟩
  have hNext := (foldl_max_le_iff.mp h).2 feature hFeature
  rwa [Index.next_of_lt (hWords feature hFeature)] at hNext

/-- A forest of one node that reads the feature of the largest index. -/
def farSighted : Forest :=
  ⟨#[Interior.ofLeaves (.threshold Index.largest 0) (.constant 1) (.constant 2) 0], [0], 0⟩

/-- No feature at all is required of its inputs. -/
example : farSighted.requiredDimension = 0 := by decide

end Forest

end ForestGraph
