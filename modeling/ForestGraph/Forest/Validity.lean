import ForestGraph.Forest.Basic

/-!
# The shape of a forest

A forest is well-formed when its nodes form disjoint binary trees numbered from
the roots down: the roots are distinct nodes, the edges of node `i` carry the
numbers `2 * i` and `2 * i + 1`, every edge leads to a later node that is no
root and that no other edge leads to, and every node is a root or the end of an
edge.  `Forest.validate` finds the first fault in the order of the roots, then
of the nodes and their edges, then of the nodes that nothing leads to.
-/

namespace ForestGraph.Forest

/-- Checks that roots are distinct nodes below `count`; `seen` are the roots
that come before. -/
def checkRoots (count : Nat) (seen : List Nat) : List Nat → Except Error Unit
  | [] => .ok ()
  | root :: later =>
      if count ≤ root then .error (.rootOutside root count)
      else if seen.contains root then .error (.repeatedRoot root)
      else checkRoots count (root :: seen) later

/-- Checks the nodes that the edges of node `index` lead to, and adds them to
the nodes `claimed` by edges before. -/
def checkChildren (forest : Forest) (index : Nat) (claimed : List Nat) :
    List Nat → Except Error (List Nat)
  | [] => .ok claimed
  | child :: later =>
      if forest.nodeCount ≤ child then .error (.childOutside index child forest.nodeCount)
      else if child ≤ index then .error (.childNotLater index child)
      else if forest.isRoot child then .error (.childIsRoot index child)
      else if claimed.contains child then .error (.secondParent child)
      else checkChildren forest index (child :: claimed) later

/-- Checks the numbering of edges and the children of the nodes from `index`
on, and gives the nodes that edges lead to. -/
def checkNodes (forest : Forest) (index : Nat) (claimed : List Nat) :
    List Interior → Except Error (List Nat)
  | [] => .ok claimed
  | node :: later =>
      if node.firstEdge ≠ index * edgesPerNode then
        .error (.misnumberedEdges index node.firstEdge (index * edgesPerNode))
      else do
        let claimed ← checkChildren forest index claimed node.children
        checkNodes forest (index + 1) claimed later

/-- The first node that is neither a root nor claimed by an edge. -/
def orphan? (forest : Forest) (claimed : List Nat) : Option Nat :=
  (List.range forest.nodeCount).find? fun node =>
    !forest.isRoot node && !claimed.contains node

/-- Accepts exactly the well-formed forests, and reports the first fault of any
other. -/
def validate (forest : Forest) : Except Error Unit := do
  checkRoots forest.nodeCount [] forest.roots
  let claimed ← checkNodes forest 0 [] forest.nodes.toList
  match forest.orphan? claimed with
  | some node => throw (.orphan node)
  | none => return ()

/-- A forest put together from its parts, if they are well-formed. -/
def ofParts (nodes : Array Interior) (roots : List Nat) (bias : Float) :
    Except Error Forest := do
  let forest : Forest := ⟨nodes, roots, bias⟩
  forest.validate
  return forest

/-- The forest without trees is well-formed. -/
theorem validate_empty : empty.validate = .ok () := rfl

end ForestGraph.Forest
