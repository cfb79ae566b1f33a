import ForestGraph.Proofs.Shape

/-!
# Paths from the roots

The well-formed forests are those in which every node is reached in exactly one
way: from one place in the list of roots, over one sequence of edges.  The
validator looks at roots, numbers and single edges only, so both directions go
along paths, edge by edge from their ends.
-/

namespace ForestGraph.Forest

/-- A sequence of edges leads from one node to another.  An edge is given by the
node that it leaves and the decision there. -/
def Leads (forest : Forest) : Nat → List (Nat × Bool) → Nat → Prop
  | start, [], index => start = index
  | start, edge :: later, index =>
      edge.1 = start ∧ ∃ next, forest.EdgeTo edge.1 edge.2 next ∧ Leads forest next later index

/-- A way to reach a node: a position in the list of roots, and edges that lead
from the root there to the node. -/
def RootPath (forest : Forest) (path : Nat × List (Nat × Bool)) (index : Nat) : Prop :=
  ∃ root, forest.roots[path.1]? = some root ∧ forest.Leads root path.2 index

variable {forest : Forest}

/-- The last edge of a sequence leads on from where the others end. -/
theorem leads_concat_iff {start parent index : Nat} {edges : List (Nat × Bool)}
    {decision : Bool} :
    forest.Leads start (edges ++ [(parent, decision)]) index ↔
      forest.Leads start edges parent ∧ forest.EdgeTo parent decision index := by
  induction edges generalizing start with
  | nil => simp [Leads, @eq_comm _ parent]
  | cons edge later ih =>
      simp only [List.cons_append, Leads, ih]
      tauto

theorem rootPath_nil_iff {tree index : Nat} :
    forest.RootPath (tree, []) index ↔ forest.roots[tree]? = some index := by
  simp [RootPath, Leads]

theorem rootPath_concat_iff {tree parent index : Nat} {edges : List (Nat × Bool)}
    {decision : Bool} :
    forest.RootPath (tree, edges ++ [(parent, decision)]) index ↔
      forest.RootPath (tree, edges) parent ∧ forest.EdgeTo parent decision index := by
  simp only [RootPath, leads_concat_iff]
  tauto

/-! ## Well-formed forests -/

/-- Every node of a well-formed forest is reached: a root over no edge, any other
node over the edge that enters it. -/
theorem WellFormed.exists_rootPath (h : forest.WellFormed) {index : Nat}
    (hIndex : index < forest.nodeCount) : ∃ path, forest.RootPath path index := by
  induction index using Nat.strongRecOn with
  | ind index ih =>
      rcases h.entered index hIndex with hRoot | ⟨parent, decision, hEdge⟩
      · obtain ⟨tree, hTree⟩ := List.mem_iff_getElem?.mp hRoot
        exact ⟨(tree, []), rootPath_nil_iff.mpr hTree⟩
      · have hParent := h.descends hEdge
        obtain ⟨⟨tree, edges⟩, hPath⟩ := ih parent hParent.1 (by omega)
        exact ⟨_, rootPath_concat_iff.mpr ⟨hPath, hEdge⟩⟩

/-- Two ways to reach a node of a well-formed forest are the same. -/
theorem WellFormed.rootPath_unique (h : forest.WellFormed) {tree other index : Nat}
    {edges others : List (Nat × Bool)} (hPath : forest.RootPath (tree, edges) index)
    (hOther : forest.RootPath (other, others) index) :
    other = tree ∧ others = edges := by
  -- The paths are compared from their ends, where the edges are those that enter the node.
  induction edges using List.reverseRecOn generalizing index others with
  | nil =>
      have hRoot := rootPath_nil_iff.mp hPath
      cases others using List.reverseRecOn with
      | nil =>
          have hSame := rootPath_nil_iff.mp hOther
          have hBound := (List.getElem?_eq_some_iff.mp hSame).1
          exact ⟨(List.getElem?_inj hBound h.distinct).mp (hSame.trans hRoot.symm), rfl⟩
      | append_singleton others last =>
          have hEdge := (rootPath_concat_iff.mp hOther).2
          exact absurd (List.mem_of_getElem? hRoot) (h.rootless hEdge)
  | append_singleton edges last ih =>
      obtain ⟨hBefore, hEdge⟩ := rootPath_concat_iff.mp hPath
      cases others using List.reverseRecOn with
      | nil => exact absurd (List.mem_of_getElem? (rootPath_nil_iff.mp hOther)) (h.rootless hEdge)
      | append_singleton others otherLast =>
          obtain ⟨hOtherBefore, hOtherEdge⟩ := rootPath_concat_iff.mp hOther
          have hLast : otherLast = last :=
            Prod.ext_iff.mpr (h.unshared (h.rootless hEdge) hEdge hOtherEdge)
          subst hLast
          have hSame := ih hBefore hOtherBefore
          simp [hSame]

/-! ## Forests with unique paths -/

/-- If paths are unique and lead to all nodes, the shape is right: every fault is a
node that is reached twice or not at all. -/
theorem wellFormed_of_existsUnique_rootPath
    (hNumbered : ∀ {index : Nat} {node : Interior}, forest.nodes[index]? = some node →
      node.firstEdge = index * edgesPerNode)
    (hDescends : forest.Descends) (hRooted : ∀ root ∈ forest.roots, root < forest.nodeCount)
    (hPaths : ∀ index < forest.nodeCount, ∃! path, forest.RootPath path index) :
    forest.WellFormed := by
  -- Every edge ends a path, as the node that it leaves is reached.
  have hEnter : ∀ {parent decision child}, forest.EdgeTo parent decision child →
      ∃ tree edges, forest.RootPath (tree, edges ++ [(parent, decision)]) child := by
    intro parent decision child hEdge
    obtain ⟨⟨tree, edges⟩, hPath, _⟩ := hPaths parent hEdge.lt_nodeCount
    exact ⟨tree, edges, rootPath_concat_iff.mpr ⟨hPath, hEdge⟩⟩
  refine ⟨?_, hRooted, hNumbered, hDescends, ?_, ?_, ?_⟩
  · rw [List.nodup_iff_getElem?_ne_getElem?]
    intro tree other hLess hOther hSame
    have hRoot := List.getElem?_eq_getElem hOther
    have hIndex := hRooted _ (List.getElem_mem hOther)
    have hEqual := (hPaths _ hIndex).unique (rootPath_nil_iff.mpr (hSame.trans hRoot))
      (rootPath_nil_iff.mpr hRoot)
    simp only [Prod.mk.injEq, and_true] at hEqual
    omega
  · intro parent decision child hEdge hRoot
    obtain ⟨tree, hTree⟩ := List.mem_iff_getElem?.mp hRoot
    obtain ⟨other, edges, hPath⟩ := hEnter hEdge
    have hEqual := (hPaths child (hRooted child hRoot)).unique (rootPath_nil_iff.mpr hTree) hPath
    simp at hEqual
  · intro parent other decision choice child _ hEdge hOther
    obtain ⟨tree, edges, hPath⟩ := hEnter hEdge
    obtain ⟨otherTree, others, hOtherPath⟩ := hEnter hOther
    have hEqual := (hPaths child (hDescends hEdge).2).unique hOtherPath hPath
    simpa using (List.append_inj' (congrArg Prod.snd hEqual) rfl).2
  · intro index hIndex
    obtain ⟨⟨tree, edges⟩, hPath, _⟩ := hPaths index hIndex
    cases edges using List.reverseRecOn with
    | nil => exact .inl (List.mem_of_getElem? (rootPath_nil_iff.mp hPath))
    | append_singleton edges last => exact .inr ⟨_, _, (rootPath_concat_iff.mp hPath).2⟩

/-- The validator accepts exactly the forests in which the edges are numbered node by
node and lead to later nodes, the roots are nodes, and every node is reached from
the roots in exactly one way. -/
theorem validate_eq_ok_iff_existsUnique_rootPath (forest : Forest) :
    forest.validate = .ok () ↔
      (∀ index node, forest.nodes[index]? = some node → node.firstEdge = 2 * index) ∧
      (∀ parent decision child, forest.EdgeTo parent decision child →
        parent < child ∧ child < forest.nodeCount) ∧
      (∀ root ∈ forest.roots, root < forest.nodeCount) ∧
      ∀ index < forest.nodeCount, ∃! path, forest.RootPath path index := by
  rw [validate_eq_ok_iff]
  constructor
  · intro h
    refine ⟨fun index node hNode => ?_, fun _ _ _ => h.descends, h.rooted, fun index hIndex => ?_⟩
    · rw [h.numbered hNode, edgesPerNode, Nat.mul_comm]
    · obtain ⟨path, hPath⟩ := h.exists_rootPath hIndex
      exact ⟨path, hPath, fun _ hOther => Prod.ext_iff.mpr (h.rootPath_unique hPath hOther)⟩
  · rintro ⟨hNumbered, hDescends, hRooted, hPaths⟩
    refine wellFormed_of_existsUnique_rootPath (fun {index node} hNode => ?_)
      (hDescends _ _ _) hRooted hPaths
    rw [hNumbered index node hNode, edgesPerNode, Nat.mul_comm]

end ForestGraph.Forest
