import ForestGraph.DeltaList.Basic

/-!
# Reading a compressed list

A cursor stands on one entry of a list, or behind the last one.  It moves
forward only.  Cursors are values: a copy moves on its own, and a failed
operation leaves the cursor where it is.
-/

namespace ForestGraph.DeltaList

/-- A place in a list: the byte where the code of the current entry starts, the
entry itself and the length of its code. -/
structure Cursor where
  bytes : List UInt8
  position : Nat
  value : UInt64
  width : Nat
  deriving DecidableEq

namespace Cursor

/-- Whether the cursor stands on an entry. -/
def isValid (cursor : Cursor) : Bool :=
  decide (cursor.position < cursor.bytes.length)

/-- Adds the difference whose code starts at the position of the cursor; behind
the last entry the width is zero and the value stays. -/
def settle (cursor : Cursor) : Cursor :=
  if cursor.isValid then
    let (delta, width) := Varint.decode (cursor.bytes.drop cursor.position)
    { cursor with value := cursor.value + delta, width := width }
  else { cursor with width := 0 }

/-- A cursor on the first entry. -/
def start (bytes : List UInt8) : Cursor :=
  settle ⟨bytes, 0, 0, 0⟩

/-- The current entry. -/
def get (cursor : Cursor) : Except Error UInt64 :=
  if cursor.isValid then .ok cursor.value else .error .readPastEnd

/-- Moves to the next entry. -/
def advance (cursor : Cursor) : Except Error Cursor :=
  if cursor.isValid then
    .ok (settle { cursor with position := cursor.position + cursor.width })
  else .error .advancePastEnd

/-- The current entry and the cursor behind it; nothing behind the last entry. -/
def next? (cursor : Cursor) : Option (UInt64 × Cursor) :=
  match cursor.get, cursor.advance with
  | .ok value, .ok later => some (value, later)
  | _, _ => none

/-- The next `count` entries, or all that are left, and the cursor behind them. -/
def take : Nat → Cursor → List UInt64 × Cursor
  | 0, cursor => ([], cursor)
  | count + 1, cursor =>
      match cursor.next? with
      | none => ([], cursor)
      | some (value, later) =>
          let (values, final) := take count later
          (value :: values, final)

/-- All entries that are left, and the cursor behind them.  There are no more
entries than bytes. -/
def drain (cursor : Cursor) : List UInt64 × Cursor :=
  take (cursor.bytes.length - cursor.position) cursor

/-- The inspection text of a cursor. -/
def inspect (cursor : Cursor) : String :=
  Inspect.record "Iter"
    [("mem", Inspect.list (cursor.bytes.map fun byte => toString byte.toNat)),
     ("pos", toString cursor.position),
     ("value", toString cursor.value.toNat),
     ("increment", toString cursor.width)]

end Cursor

/-- A cursor on the first entry of a list. -/
def cursor (list : DeltaList) : Cursor :=
  Cursor.start list.bytes

/-- The entries of a list, in order. -/
def toList (list : DeltaList) : List UInt64 :=
  list.cursor.drain.1

@[simp] theorem toList_empty : empty.toList = [] := rfl

end ForestGraph.DeltaList
