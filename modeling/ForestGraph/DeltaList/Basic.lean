import ForestGraph.Error
import ForestGraph.DeltaList.Varint
import ForestGraph.Number.Layout

/-!
# Compressed lists of non-decreasing words

A `DeltaList` stores a non-decreasing sequence of 64-bit words as the codes of
the differences between neighbours, the first word counted from zero.  Small
gaps take one byte, whatever the size of the words.

Pushing a word below the last one fails and leaves the list as it was.
-/

namespace ForestGraph

/-- A non-decreasing sequence of words, with its last word and its length. -/
structure DeltaList where
  bytes : List UInt8
  last : UInt64
  size : Nat
  deriving DecidableEq

namespace DeltaList

/-- The list without entries. -/
def empty : DeltaList :=
  ⟨[], 0, 0⟩

/-- Whether the list has no entries. -/
def isEmpty (list : DeltaList) : Bool :=
  list.size == 0

/-- The number of bytes that the entries take. -/
def byteLength (list : DeltaList) : Nat :=
  list.bytes.length

/-- The largest entry, which is always the last one. -/
def max (list : DeltaList) : Except Error UInt64 :=
  if list.size = 0 then .error .maxOfEmptyList else .ok list.last

/-- Appends a word that is not below the last one. -/
def push (list : DeltaList) (value : UInt64) : Except Error DeltaList :=
  if list.size = 0 ∨ list.last ≤ value then
    .ok ⟨list.bytes ++ Varint.encode (value - list.last), value, list.size + 1⟩
  else .error (.decreasingPush value list.last)

/-- Appends words one after the other up to the first that is refused. -/
def pushAll (list : DeltaList) : List UInt64 → DeltaList × Except Error Unit
  | [] => (list, .ok ())
  | value :: values =>
      match list.push value with
      | .ok longer => longer.pushAll values
      | .error refusal => (list, .error refusal)

/-- The list of a non-decreasing sequence. -/
def ofSorted (values : List UInt64) : Except Error DeltaList :=
  values.foldlM push empty

/-- Announces further entries; the contents stay the same. -/
def reserve (list : DeltaList) (_entries : Nat) : DeltaList :=
  list

/-- Forgets all entries. -/
def reset (_list : DeltaList) : DeltaList :=
  empty

/-- The inspection text of a list. -/
def inspect (list : DeltaList) : String :=
  Inspect.record "CompressedIntegerList"
    [("mem", Inspect.list (list.bytes.map fun byte => toString byte.toNat)),
     ("last", toString list.last.toNat),
     ("size", toString list.size)]

@[simp] theorem reset_eq_empty (list : DeltaList) : list.reset = empty := rfl

@[simp] theorem reserve_eq_self (list : DeltaList) (entries : Nat) :
    list.reserve entries = list := rfl

@[simp] theorem ofSorted_nil : ofSorted [] = .ok empty := rfl

/-- Every word may start a list. -/
theorem push_empty (value : UInt64) :
    empty.push value = .ok ⟨Varint.encode value, value, 1⟩ := by
  simp [push, empty]

end DeltaList

end ForestGraph
