import ForestGraph.Error

/-!
# Selections of elements

The nodes of a graph are numbered, and so are the output ports of a node and
the elements of a port.  A selection is a list of elements of any ports, in any
order, with repetitions; it is what a node reads.
-/

namespace ForestGraph

/-- An output port of a node. -/
structure OutputRef where
  node : Nat
  port : Nat
  deriving DecidableEq, Hashable

/-- One element of an output port. -/
structure Element where
  output : OutputRef
  index : Nat
  deriving DecidableEq

/-- A list of elements. -/
abbrev Selection := List Element

namespace Selection

/-- All elements of a port of a given size. -/
def ofOutput (output : OutputRef) (size : Nat) : Selection :=
  (List.range size).map (fun index => ⟨output, index⟩)

/-- One element of a port. -/
def single (output : OutputRef) (index : Nat) : Selection :=
  [⟨output, index⟩]

/-- The selection of the one element at a position. -/
def element (selection : Selection) (position : Nat) : Except Error Selection :=
  match selection[position]? with
  | some element => .ok [element]
  | none => .error (.outOfBounds position selection.length)

/-- The selection of consecutive elements. -/
def range (selection : Selection) (start count : Nat) : Except Error Selection :=
  if start + count ≤ selection.length then
    .ok ((selection.drop start).take count)
  else .error (.outOfBounds (Index.capped (start + count)) selection.length)

@[simp] theorem length_ofOutput (output : OutputRef) (size : Nat) :
    (ofOutput output size).length = size := by
  simp [ofOutput]

theorem mem_ofOutput_iff {output : OutputRef} {size : Nat} {element : Element} :
    element ∈ ofOutput output size ↔ element.output = output ∧ element.index < size := by
  obtain ⟨source, index⟩ := element
  simp only [ofOutput, List.mem_map, List.mem_range, Element.mk.injEq]
  constructor
  · rintro ⟨_, hIndex, rfl, rfl⟩
    exact ⟨rfl, hIndex⟩
  · rintro ⟨rfl, hIndex⟩
    exact ⟨index, hIndex, rfl, rfl⟩

theorem element_eq_ok_iff {selection result : Selection} {position : Nat} :
    selection.element position = .ok result ↔
      ∃ element, selection[position]? = some element ∧ result = [element] := by
  unfold Selection.element
  cases selection[position]? <;> simp [eq_comm]

theorem range_eq_ok_iff {selection result : Selection} {start count : Nat} :
    selection.range start count = .ok result ↔
      start + count ≤ selection.length ∧ result = (selection.drop start).take count := by
  unfold Selection.range
  split
  · rename_i hFits
    simp [hFits, eq_comm]
  · rename_i hFits
    simp [hFits]

end Selection

end ForestGraph
