import Mathlib.Algebra.BigOperators.Group.List.Basic
import Mathlib.Algebra.Ring.Nat
import ForestGraph.Proofs.Descents
import ForestGraph.Proofs.Recordings

/-!
# The list of the taken edges

The marks of an outcome are handed on as a compressed list of the numbers that are marked.
The list loses nothing: its entries are these numbers, each once and in ascending order.
In a well-formed forest they are the numbers of the edges on one path for each tree, and as
no two paths have an edge in common, there are as many as the paths have edges together.
-/

namespace ForestGraph

/-! ## Marked numbers -/

/-- The positions that are marked, in ascending order. -/
def markedNumbers (marks : List Bool) : List Nat :=
  (marks.zipIdx.filter (fun flag => flag.1)).map (fun flag => flag.2)

theorem mem_markedNumbers_iff {marks : List Bool} {number : Nat} :
    number ∈ markedNumbers marks ↔ marks[number]? = some true := by
  simp [markedNumbers, List.mem_zipIdx_iff_getElem?]

theorem pairwise_lt_markedNumbers (marks : List Bool) :
    (markedNumbers marks).Pairwise (· < ·) := by
  have hAll : (marks.zipIdx.map fun flag => flag.2).Pairwise (· < ·) := by
    rw [List.zipIdx_map_snd]
    exact List.pairwise_lt_range'
  exact hAll.sublist (List.filter_sublist.map _)

/-- The active edges are listed, as long as their numbers are words. -/
theorem Outcome.exists_activeEdges {outcome : Outcome}
    (hWords : outcome.edgeIndicator.length ≤ Index.largest + 1) :
    ∃ list, outcome.activeEdges = .ok list ∧
      list.toList.map UInt64.toNat = markedNumbers outcome.edgeIndicator ∧
      list.size = (markedNumbers outcome.edgeIndicator).length := by
  have hWord : ∀ number ∈ markedNumbers outcome.edgeIndicator,
      number.toUInt64.toNat = number := by
    intro number hMem
    have hBound := (List.getElem?_eq_some_iff.mp (mem_markedNumbers_iff.mp hMem)).1
    rw [Nat.toUInt64, UInt64.toNat_ofNat', Nat.mod_eq_of_lt]
    exact hBound.trans_le hWords
  -- Words ascend as the numbers that they stand for.
  have hSorted : DeltaList.Ascending ((markedNumbers outcome.edgeIndicator).map Nat.toUInt64) := by
    refine List.pairwise_map.mpr
      ((pairwise_lt_markedNumbers _).imp_of_mem fun hFirst hSecond hLess => ?_)
    rw [UInt64.le_iff_toNat_le, hWord _ hFirst, hWord _ hSecond]
    exact hLess.le
  have hEdges : outcome.activeEdges =
      DeltaList.ofSorted ((markedNumbers outcome.edgeIndicator).map Nat.toUInt64) := by
    rw [activeEdges, markedNumbers, List.map_map]
    rfl
  refine ⟨_, hEdges.trans (DeltaList.ofSorted_eq_ok_iff.mpr ⟨hSorted, rfl⟩), ?_, ?_⟩
  · rw [DeltaList.toList_ofEntries, List.map_map]
    exact (List.map_congr_left hWord).trans (List.map_id _)
  · exact List.length_map _

namespace Forest

variable {forest : Forest} {input : List Float}

/-! ## The edges of the walks -/

/-- The numbers of the edges that some visits follow. -/
def numbersOf (visits : List Visit) : List Nat :=
  visits.map fun visit => visit.step.edge

/-- The indices of the visited nodes ascend. -/
theorem Walk.pairwise_lt {current : Nat} {visits : List Visit}
    (h : forest.Walk input current visits) :
    visits.Pairwise (fun visit later => visit.node < later.node) ∧
      ∀ visit ∈ visits, current ≤ visit.node := by
  induction h with
  | leaf _ _ => exact ⟨List.pairwise_singleton _ _, by simp⟩
  | interior _ _ hLater _ ih =>
      obtain ⟨hAscending, hBelow⟩ := ih
      refine ⟨List.pairwise_cons.mpr ⟨fun visit hVisit => ?_, hAscending⟩, ?_⟩
      · exact hLater.trans_le (hBelow visit hVisit)
      · exact List.forall_mem_cons.mpr ⟨le_rfl, fun visit hVisit =>
          hLater.le.trans (hBelow visit hVisit)⟩

/-- The edges of a well-formed forest are numbered by their nodes. -/
theorem WellFormed.edge_eq (h : forest.WellFormed) {current : Nat} {visits : List Visit}
    (hWalk : forest.Walk input current visits) {visit : Visit} (hVisit : visit ∈ visits) :
    visit.step.edge = 2 * visit.node + visit.decision.toNat := by
  obtain ⟨node, hMakes⟩ := hWalk.makes_of_mem hVisit
  exact (h.numbers_iff.mp ⟨node, hMakes.found, hMakes.number⟩).2

/-- No edge occurs twice on a walk. -/
theorem WellFormed.nodup_numbersOf (h : forest.WellFormed) {current : Nat} {visits : List Visit}
    (hWalk : forest.Walk input current visits) : (numbersOf visits).Nodup := by
  refine List.pairwise_map.mpr
    (hWalk.pairwise_lt.1.imp_of_mem fun {first second} hFirst hSecond hLess => ?_)
  rw [h.edge_eq hWalk hFirst, h.edge_eq hWalk hSecond]
  have hBit := first.decision.toNat_le
  have hOther := second.decision.toNat_le
  omega

/-- Walks from different roots have no edge in common. -/
theorem WellFormed.disjoint_numbersOf (h : forest.WellFormed) {root other : Nat}
    {visits others : List Visit} (hRoot : root ∈ forest.roots) (hOther : other ∈ forest.roots)
    (hWalk : forest.Walk input root visits) (hOtherWalk : forest.Walk input other others)
    (hDifferent : root ≠ other) : (numbersOf visits).Disjoint (numbersOf others) := by
  intro number hNumber hOtherNumber
  obtain ⟨visit, hVisit, rfl⟩ := List.mem_map.mp hNumber
  obtain ⟨second, hSecond, hSame⟩ := List.mem_map.mp hOtherNumber
  rw [h.edge_eq hWalk hVisit, h.edge_eq hOtherWalk hSecond] at hSame
  have hBit := visit.decision.toNat_le
  have hOtherBit := second.decision.toNat_le
  have hNode : second.node = visit.node := by omega
  -- The node of the edge would belong to both trees.
  have hBelow := hWalk.below_of_mem .root hVisit
  have hOtherBelow := hOtherWalk.below_of_mem .root hSecond
  rw [hNode] at hOtherBelow
  exact hDifferent (h.root_unique hRoot hOther hBelow hOtherBelow).symm

/-- The walks of all trees together repeat no edge. -/
theorem WellFormed.nodup_flatMap_numbersOf (h : forest.WellFormed) {walks : List (List Visit)}
    (hWalked : forest.Walked input walks) : (walks.flatMap numbersOf).Nodup := by
  have hWalks := List.forall₂_iff_get.mp hWalked.fromRoots
  refine List.nodup_flatMap.mpr ⟨fun visits hVisits => ?_, ?_⟩
  · obtain ⟨_, _, hWalk⟩ := hWalked.exists_walk hVisits
    exact h.nodup_numbersOf hWalk
  · refine List.pairwise_iff_getElem.mpr fun first second hFirst hSecond hLess => ?_
    have hRoot : first < forest.roots.length := by omega
    have hOther : second < forest.roots.length := by omega
    refine h.disjoint_numbersOf (List.getElem_mem hRoot) (List.getElem_mem hOther)
      (hWalks.2 first hRoot hFirst) (hWalks.2 second hOther hSecond) ?_
    exact List.pairwise_iff_getElem.mp h.distinct first second hRoot hOther hLess

/-- The marked numbers are those of the edges of the walks. -/
theorem Walked.mem_markedNumbers_iff {walks : List (List Visit)}
    (h : forest.Walked input walks) {number : Nat} :
    number ∈ markedNumbers (forest.outcomeOf walks).edgeIndicator ↔
      number ∈ walks.flatMap numbersOf := by
  rw [ForestGraph.mem_markedNumbers_iff, outcomeOf, List.getElem?_map,
    Option.map_eq_some_iff]
  simp only [List.contains_iff_mem, List.getElem?_eq_some_iff, List.getElem_range,
    List.length_range]
  constructor
  · rintro ⟨_, ⟨_, rfl⟩, hMem⟩
    exact hMem
  · intro hMem
    obtain ⟨visits, hVisits, hNumber⟩ := List.mem_flatMap.mp hMem
    obtain ⟨visit, hVisit, rfl⟩ := List.mem_map.mp hNumber
    exact ⟨_, ⟨h.inside visits hVisits visit hVisit, rfl⟩, hMem⟩

/-- There are as many marks as the walks have edges together. -/
theorem WellFormed.length_markedNumbers (h : forest.WellFormed) {walks : List (List Visit)}
    (hWalked : forest.Walked input walks) :
    (markedNumbers (forest.outcomeOf walks).edgeIndicator).length =
      (walks.map List.length).sum := by
  have hPerm : (markedNumbers (forest.outcomeOf walks).edgeIndicator).Perm
      (walks.flatMap numbersOf) :=
    (List.perm_ext_iff_of_nodup (pairwise_lt_markedNumbers _).nodup
      (h.nodup_flatMap_numbersOf hWalked)).mpr fun _ => hWalked.mem_markedNumbers_iff
  rw [hPerm.length_eq, List.length_flatMap]
  simp only [numbersOf, List.length_map]

/-! ## The list -/

/-- A path from a root down to a leaf over edges that the input decides for. -/
structure TakenPath (forest : Forest) (input : List Float) (root : Nat)
    (path : List (Nat × Bool)) : Prop where
  descent : forest.Descent root path
  decides : ∀ edge ∈ path, forest.Decides input edge.1 edge.2

/-- The entries of a list are the edges on one path for each tree, each edge once. -/
structure ListsPaths (forest : Forest) (input : List Float) (list : DeltaList)
    (paths : List (List (Nat × Bool))) : Prop where
  taken : List.Forall₂ (forest.TakenPath input) forest.roots paths
  mem_iff : ∀ number, number ∈ list.toList.map UInt64.toNat ↔
    ∃ path ∈ paths, ∃ edge ∈ path, number = 2 * edge.1 + edge.2.toNat
  size : list.size = (paths.map List.length).sum
  treeCount_le : forest.treeCount ≤ list.size

theorem Walk.takenPath {root : Nat} {visits : List Visit}
    (h : forest.Walk input root visits) : forest.TakenPath input root (edgesOf visits) := by
  refine ⟨h.descent, fun edge hEdge => ?_⟩
  obtain ⟨visit, hVisit, rfl⟩ := List.mem_map.mp hEdge
  obtain ⟨node, hMakes⟩ := h.makes_of_mem hVisit
  exact hMakes.decides

/-- The numbers of the edges of a walk, by the nodes of these edges. -/
theorem WellFormed.mem_numbersOf_iff (h : forest.WellFormed) {root number : Nat}
    {visits : List Visit} (hWalk : forest.Walk input root visits) :
    number ∈ numbersOf visits ↔
      ∃ edge ∈ edgesOf visits, number = 2 * edge.1 + edge.2.toNat := by
  simp only [numbersOf, edgesOf, List.mem_map, exists_exists_and_eq_and]
  refine exists_congr fun visit => and_congr_right fun hVisit => ?_
  rw [h.edge_eq hWalk hVisit]
  exact eq_comm

/-- Every walk has an edge. -/
theorem Walked.treeCount_le {walks : List (List Visit)} (h : forest.Walked input walks) :
    forest.treeCount ≤ (walks.map List.length).sum := by
  have hSome : ∀ length ∈ walks.map List.length, 1 ≤ length := by
    intro length hLength
    obtain ⟨visits, hVisits, rfl⟩ := List.mem_map.mp hLength
    obtain ⟨_, _, hWalk⟩ := h.exists_walk hVisits
    obtain ⟨visit, hVisit, _⟩ := hWalk.head
    exact List.length_pos_of_mem hVisit
  have hCount := List.length_le_sum_of_one_le _ hSome
  rwa [List.length_map, ← h.fromRoots.length_eq] at hCount

/-- The marks of a well-formed forest are those of the paths of its walks. -/
theorem WellFormed.listsPaths (h : forest.WellFormed) {walks : List (List Visit)}
    (hWalked : forest.Walked input walks) {list : DeltaList}
    (hEntries : list.toList.map UInt64.toNat =
      markedNumbers (forest.outcomeOf walks).edgeIndicator)
    (hSize : list.size = (markedNumbers (forest.outcomeOf walks).edgeIndicator).length) :
    forest.ListsPaths input list (walks.map edgesOf) := by
  rw [h.length_markedNumbers hWalked] at hSize
  refine ⟨?_, fun number => ?_, ?_, hSize ▸ hWalked.treeCount_le⟩
  · rw [List.forall₂_map_right_iff]
    exact hWalked.fromRoots.imp fun _ _ hWalk => hWalk.takenPath
  · rw [hEntries, hWalked.mem_markedNumbers_iff, List.mem_flatMap]
    simp only [List.mem_map, exists_exists_and_eq_and]
    refine exists_congr fun visits => and_congr_right fun hVisits => ?_
    obtain ⟨_, _, hWalk⟩ := hWalked.exists_walk hVisits
    exact h.mem_numbersOf_iff hWalk
  · rw [hSize, List.map_map]
    simp only [Function.comp_def, edgesOf, List.length_map]

/-- The active edges of an outcome can be listed, as the numbers of edges are words: in
ascending order and each once, exactly those that are marked.  In a well-formed forest they
are the edges on the taken path of each tree. -/
theorem activeEdges_lossless {outcome : Outcome}
    (hOutcome : forest.evaluate input = .ok outcome)
    (hWords : forest.edgeCount ≤ Index.largest + 1) :
    ∃ list, outcome.activeEdges = .ok list ∧
      (list.toList.map UInt64.toNat).Pairwise (· < ·) ∧
      (∀ number, number ∈ list.toList.map UInt64.toNat ↔
        outcome.edgeIndicator[number]? = some true) ∧
      list.size = list.toList.length ∧
      (forest.validate = .ok () → ∃ paths, forest.ListsPaths input list paths) := by
  obtain ⟨walks, hWalked, rfl⟩ := evaluate_eq_ok_iff.mp hOutcome
  have hLength : (forest.outcomeOf walks).edgeIndicator.length = forest.edgeCount := by
    simp [outcomeOf]
  obtain ⟨list, hList, hEntries, hSize⟩ := Outcome.exists_activeEdges (hLength ▸ hWords)
  refine ⟨list, hList, ?_, fun number => ?_, ?_, fun hValid => ?_⟩
  · rw [hEntries]
    exact pairwise_lt_markedNumbers _
  · rw [hEntries]
    exact ForestGraph.mem_markedNumbers_iff
  · rw [hSize, ← hEntries, List.length_map]
  · exact ⟨_, (validate_eq_ok_iff.mp hValid).listsPaths hWalked hEntries hSize⟩

theorem activeEdges_lossless_twoTrees :
    twoTrees.edgeCount ≤ Index.largest + 1 ∧
    ∃ outcome list paths, twoTrees.evaluate [0.75, 2] = .ok outcome ∧
      outcome.activeEdges = .ok list ∧ twoTrees.ListsPaths [0.75, 2] list paths := by
  have hValid : twoTrees.validate = .ok () := rfl
  have hReads : twoTrees.ReadsBelow [0.75, 2].length := by decide
  have hWords : twoTrees.edgeCount ≤ Index.largest + 1 := by decide
  obtain ⟨walks, hWalked⟩ := (validate_eq_ok_iff.mp hValid).expandable.exists_walked hReads
  have hOutcome := evaluate_eq_ok_iff.mpr ⟨walks, hWalked, rfl⟩
  obtain ⟨list, hList, _, _, _, hPaths⟩ := activeEdges_lossless hOutcome hWords
  obtain ⟨paths, hListed⟩ := hPaths hValid
  exact ⟨hWords, _, list, paths, hOutcome, hList, hListed⟩

end Forest

end ForestGraph
