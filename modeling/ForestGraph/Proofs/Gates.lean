import ForestGraph.Proofs.Shape

/-!
# Gates

While the edge indicator of a forest is wired, a node that several edges lead to
keeps what was recorded for the last of them.  A node is `Gated` if it is a root
or if that last edge is taken.  An input may reach a node over another edge, so
the indicators of gated nodes and those of the evaluation agree exactly for the
inputs that enter every node over its last edge.
-/

namespace ForestGraph.Forest

/-- The place of an edge in the order of all edges. -/
def edgeRank (index : Nat) (decision : Bool) : Nat :=
  2 * index + decision.toNat

theorem edgeRank_lt_iff {index limit : Nat} {decision : Bool} :
    edgeRank index decision < 2 * limit ↔ index < limit := by
  have hBit := decision.toNat_le
  unfold edgeRank
  omega

theorem edgeRank_inj {index other : Nat} {decision choice : Bool}
    (h : edgeRank other choice = edgeRank index decision) :
    other = index ∧ choice = decision := by
  unfold edgeRank at h
  cases decision <;> cases choice <;> simp at h ⊢ <;> omega

/-- The last of the edges below a rank that lead to a node. -/
structure LastBelow (forest : Forest) (limit parent : Nat) (decision : Bool) (child : Nat) :
    Prop where
  below : edgeRank parent decision < limit
  edge : forest.EdgeTo parent decision child
  last : ∀ {other : Nat} {choice : Bool}, edgeRank other choice < limit →
    forest.EdgeTo other choice child → edgeRank other choice ≤ edgeRank parent decision

/-- The last of all edges that lead to a node. -/
def LastEdgeTo (forest : Forest) (parent : Nat) (decision : Bool) (child : Nat) : Prop :=
  forest.LastBelow (2 * forest.nodeCount) parent decision child

/-- The nodes that an input is let through to: the roots, and the other nodes
whose last edge is taken. -/
inductive Gated (forest : Forest) (input : List Float) : Nat → Prop where
  | root {index : Nat} : index ∈ forest.roots → Gated forest input index
  | child {parent : Nat} {decision : Bool} {index : Nat} :
      forest.LastEdgeTo parent decision index → Gated forest input parent →
      forest.Decides input parent decision → Gated forest input index

variable {forest : Forest} {input : List Float}

theorem LastBelow.unique {limit parent other child : Nat} {decision choice : Bool}
    (h : forest.LastBelow limit parent decision child)
    (hOther : forest.LastBelow limit other choice child) :
    other = parent ∧ choice = decision :=
  edgeRank_inj (Nat.le_antisymm (h.last hOther.below hOther.edge) (hOther.last h.below h.edge))

/-- In a forest whose edges descend, all edges to a node come before its own. -/
theorem LastBelow.lastEdgeTo (hDescends : forest.Descends) {parent child : Nat}
    {decision : Bool} (h : forest.LastBelow (2 * child) parent decision child) :
    forest.LastEdgeTo parent decision child := by
  refine ⟨edgeRank_lt_iff.mpr h.edge.lt_nodeCount, h.edge, fun {other choice} _ hOther => ?_⟩
  exact h.last (edgeRank_lt_iff.mpr (hDescends hOther).1) hOther

theorem gated_of_lastEdgeTo {parent index : Nat} {decision : Bool}
    (hRoot : index ∉ forest.roots) (hLast : forest.LastEdgeTo parent decision index) :
    forest.Gated input index ↔
      forest.Gated input parent ∧ forest.Decides input parent decision := by
  constructor
  · intro h
    cases h with
    | root hMem => exact absurd hMem hRoot
    | child hOther hParent hDecides =>
        obtain ⟨rfl, rfl⟩ := hLast.unique hOther
        exact ⟨hParent, hDecides⟩
  · rintro ⟨hParent, hDecides⟩
    exact .child hLast hParent hDecides

/-- The indicators that gated nodes give to the edges, in the order of the numbers
of the edges. -/
def GateFlags (forest : Forest) (input : List Float) (flags : List Bool) : Prop :=
  List.Forall₂ (fun number flag => ∃ index decision, forest.Numbers index decision number ∧
    (flag = true ↔ forest.Gated input index ∧ forest.Decides input index decision))
    (List.range forest.edgeCount) flags

/-- The input takes the last of the edges to every node that it reaches and that
is no root. -/
def EntersLast (forest : Forest) (input : List Float) : Prop :=
  ∀ {index : Nat}, forest.Reached input index → index ∉ forest.roots →
    ∃ parent decision, forest.LastEdgeTo parent decision index ∧
      forest.Taken input parent decision

theorem Gated.reached {index : Nat} (h : forest.Gated input index) :
    forest.Reached input index := by
  induction h with
  | root hRoot => exact .root hRoot
  | child hLast _ hDecides ih => exact .child ih hDecides hLast.edge

/-- All reached nodes are gated exactly when each is entered over its last edge. -/
theorem entersLast_iff (hDescends : forest.Descends) :
    forest.EntersLast input ↔
      ∀ index, forest.Reached input index → forest.Gated input index := by
  constructor
  · intro h index
    induction index using Nat.strongRecOn with
    | ind index ih =>
        intro hReached
        by_cases hRoot : index ∈ forest.roots
        · exact .root hRoot
        · obtain ⟨parent, decision, hLast, hParent, hDecides⟩ := h hReached hRoot
          exact .child hLast (ih parent (hDescends hLast.edge).1 hParent) hDecides
  · intro h index hReached hRoot
    cases h index hReached with
    | root hMem => exact absurd hMem hRoot
    | child hLast hParent hDecides => exact ⟨_, _, hLast, hParent.reached, hDecides⟩

/-- In a forest without shared nodes there is only one edge to enter over. -/
theorem Unshared.entersLast (h : forest.Unshared) : forest.EntersLast input := by
  intro index hReached hRoot
  cases hReached with
  | root hMem => exact absurd hMem hRoot
  | @child parent decision _ hParent hDecides hEdge =>
      refine ⟨parent, decision, ⟨edgeRank_lt_iff.mpr hEdge.lt_nodeCount, hEdge,
        fun {other choice} _ hOther => ?_⟩, hParent, hDecides⟩
      obtain ⟨rfl, rfl⟩ := h hRoot hEdge hOther
      exact Nat.le_refl _

/-- The flag of an edge is set if its node is gated and decides for it. -/
theorem GateFlags.eq_some_true_iff (hForest : forest.Expandable) {flags : List Bool}
    (hFlags : forest.GateFlags input flags) {index : Nat} {decision : Bool} {number : Nat}
    (hNumbers : forest.Numbers index decision number) :
    flags[number]? = some true ↔
      forest.Gated input index ∧ forest.Decides input index decision := by
  obtain ⟨flag, hAt, other, choice, hOther, hTruth⟩ := forall₂_getElem?_left hFlags
    (List.getElem?_range (hForest.number_lt hNumbers))
  -- The number belongs to one edge only, so the flag is that of the given edge.
  obtain ⟨rfl, rfl⟩ := hForest.owner_unique hNumbers hOther
  rw [hAt, Option.some.injEq]
  exact hTruth

/-- The evaluation marks an edge if it is taken. -/
theorem Walked.eq_some_true_iff (hForest : forest.Expandable) {walks : List (List Visit)}
    (hWalked : forest.Walked input walks) {index : Nat} {decision : Bool} {number : Nat}
    (hNumbers : forest.Numbers index decision number) :
    (forest.outcomeOf walks).edgeIndicator[number]? = some true ↔
      forest.Taken input index decision := by
  rw [hWalked.marked_iff (hForest.number_lt hNumbers)]
  constructor
  · rintro ⟨other, choice, hTaken, hOther⟩
    obtain ⟨rfl, rfl⟩ := hForest.owner_unique hNumbers hOther
    exact hTaken
  · exact fun hTaken => ⟨index, decision, hTaken, hNumbers⟩

/-- Gated and taken edges are marked alike exactly when the input enters every
node over its last edge. -/
theorem GateFlags.eq_edgeIndicator_iff (hForest : forest.Expandable) {flags : List Bool}
    (hFlags : forest.GateFlags input flags) {walks : List (List Visit)}
    (hWalked : forest.Walked input walks) :
    flags = (forest.outcomeOf walks).edgeIndicator ↔ forest.EntersLast input := by
  have hLength : flags.length = forest.edgeCount := by
    rw [← hFlags.length_eq, List.length_range]
  rw [entersLast_iff hForest.descends]
  constructor
  · intro hSame index hReached
    obtain ⟨decision, hTaken⟩ := hWalked.exists_taken hReached
    obtain ⟨number, _, hNumbers, _⟩ :=
      hForest.exists_number hTaken.lt_nodeCount decision
    have hMarked := (hWalked.eq_some_true_iff hForest hNumbers).mpr hTaken
    rw [← hSame] at hMarked
    exact ((hFlags.eq_some_true_iff hForest hNumbers).mp hMarked).1
  · intro hGated
    refine List.ext_getElem? fun number => ?_
    by_cases hNumber : number < forest.edgeCount
    · obtain ⟨index, decision, hNumbers⟩ := hForest.numbered number hNumber
      have hBoth : flags[number]? = some true ↔
          (forest.outcomeOf walks).edgeIndicator[number]? = some true := by
        rw [hFlags.eq_some_true_iff hForest hNumbers, hWalked.eq_some_true_iff hForest hNumbers]
        exact and_congr_left fun _ => ⟨Gated.reached, hGated index⟩
      -- Both flags are there, so they are equal if they are set together.
      rw [List.getElem?_eq_getElem (by omega), List.getElem?_eq_getElem
        (by simpa [outcomeOf] using hNumber)] at hBoth ⊢
      simp only [Option.some.injEq] at hBoth ⊢
      exact Bool.eq_iff_iff.mpr hBoth
    · rw [List.getElem?_eq_none (by omega), List.getElem?_eq_none (by simp [outcomeOf]; omega)]

end ForestGraph.Forest
