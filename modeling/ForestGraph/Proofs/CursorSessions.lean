import ForestGraph.Proofs.AtomicOperations

/-!
# Cursors in use

Any number of cursors read a list, each at its own pace, through `get` and `advance`
or through `next`.  Where a cursor stands depends on one number only: how often it has
been moved on, counting the moves of the cursor that it was copied from.  All that it
shows is read off the sequence that the list stands for, at this number.
-/

namespace ForestGraph.DeltaList

open Procedure

namespace Cursor

/-- Gives the current entry and moves on in place; a failure of either is no entry. -/
def nextInPlace : Procedure Cursor (Option UInt64) :=
  tryCatch
    (do
      let value ← ask get
      advanceInPlace
      return some value)
    fun _ => return none

/-- The sum that `settle` forms is a word, so the addition does not wrap around. -/
def SumFits (cursor : Cursor) : Prop :=
  cursor.value.toNat + (Varint.decode (cursor.bytes.drop cursor.position)).1.toNat < UInt64.size

end Cursor

/-- A cursor in use, and how often it has been moved on.  A copy of a cursor starts with
the number of its original. -/
structure Tracked where
  cursor : Cursor
  moves : Nat

/-- What can be asked of the cursors of a list, which are numbered as they are made. -/
inductive Request where
  | start
  | clone (number : Nat)
  | isValid (number : Nat)
  | get (number : Nat)
  | advance (number : Nat)
  | next (number : Nat)

/-- A cursor after a procedure on it, with one move more if the reply tells of one. -/
def Tracked.after {α : Type} (tracked : Tracked) (procedure : Procedure Cursor α)
    (moved : α → Bool) : Tracked :=
  match effect procedure tracked.cursor with
  | (.ok reply, cursor) => ⟨cursor, tracked.moves + (moved reply).toNat⟩
  | (.error _, cursor) => ⟨cursor, tracked.moves⟩

/-- The cursors of a list after a request.  Looking changes nothing, and neither does a
request to a cursor that does not exist. -/
def serve (list : DeltaList) (cursors : List Tracked) : Request → List Tracked
  | .start => cursors ++ [⟨list.cursor, 0⟩]
  | .clone number => cursors ++ cursors[number]?.toList
  | .isValid _ | .get _ => cursors
  | .advance number =>
      cursors.modify number fun tracked => tracked.after Cursor.advanceInPlace fun _ => true
  | .next number =>
      cursors.modify number fun tracked => tracked.after Cursor.nextInPlace Option.isSome

/-- The cursors of a list after any requests. -/
def track (list : DeltaList) (requests : List Request) : List Tracked :=
  requests.foldl list.serve []

/-- What a cursor of a list with the given entries shows. -/
structure Tracked.Follows (entries : List UInt64) (tracked : Tracked) : Prop where
  within : tracked.moves ≤ entries.length
  isValid : tracked.cursor.isValid = true ↔ tracked.moves < entries.length
  /-- The codes of the entries that were passed lie before the cursor. -/
  position : tracked.cursor.position = (codes 0 (entries.take tracked.moves)).length
  /-- On an entry, this one is given, and both ways to move on lead behind it. -/
  onEntry : ∀ value, entries[tracked.moves]? = some value →
    tracked.cursor.get = .ok value ∧ ∃ later : Cursor,
      tracked.cursor.advance = .ok later ∧ tracked.cursor.next? = some (value, later) ∧
      effect Cursor.advanceInPlace tracked.cursor = (.ok (), later) ∧
      effect Cursor.nextInPlace tracked.cursor = (.ok (some value), later) ∧
      later.position = (codes 0 (entries.take (tracked.moves + 1))).length
  /-- Behind the last entry nothing is given, and the cursor stays as it is. -/
  atEnd : tracked.moves = entries.length →
    (∃ error, tracked.cursor.get = .error error ∧ error.category = .invalidArgument) ∧
    (∃ error, tracked.cursor.advance = .error error ∧ error.category = .invalidArgument ∧
      effect Cursor.advanceInPlace tracked.cursor = (.error error, tracked.cursor)) ∧
    tracked.cursor.next? = none ∧
    effect Cursor.nextInPlace tracked.cursor = (.ok none, tracked.cursor)
  /-- The sum that is formed on moving on is a word. -/
  sumFits : tracked.cursor.isValid = true → Cursor.SumFits
    { tracked.cursor with position := tracked.cursor.position + tracked.cursor.width }

/-! ## Moving on -/

namespace Cursor

variable {seen later : List UInt64} {value : UInt64}

/-- A cursor stands behind the codes of the entries that it has passed. -/
theorem position_between (seen later : List UInt64) :
    (between seen later).position = (codes 0 seen).length := by
  cases later <;> rfl

theorem get_between_nil (seen : List UInt64) : (between seen []).get = .error .readPastEnd := by
  rw [get, isValid_between_nil]
  rfl

theorem advance_between_nil (seen : List UInt64) :
    (between seen []).advance = .error .advancePastEnd := by
  rw [advance, isValid_between_nil]
  rfl

theorem effect_advance_between_cons :
    effect advanceInPlace (between seen (value :: later)) =
      (.ok (), between (seen ++ [value]) later) := by
  refine performs_advance.effect_of_ok ?_
  rw [advance_between_cons]
  rfl

theorem effect_advance_between_nil :
    effect advanceInPlace (between seen []) = (.error .advancePastEnd, between seen []) := by
  refine performs_advance.effect_of_error ?_
  rw [advance_between_nil]
  rfl

/-- In place, the cursor behind the entry takes the place of the one on it. -/
theorem effect_next (cursor : Cursor) :
    effect nextInPlace cursor = match cursor.next? with
      | some (value, later) => (.ok (some value), later)
      | none => (.ok none, cursor) := by
  unfold nextInPlace next?
  cases hGet : cursor.get with
  | error error => simp only [effect_tryCatch, effect_bind, effect_ask, hGet, effect_pure]
  | ok value =>
      cases hAdvance : cursor.advance with
      | error error =>
          have hEffect : effect advanceInPlace cursor = (.error error, cursor) :=
            performs_advance.effect_of_error (by rw [hAdvance]; rfl)
          simp only [effect_tryCatch, effect_bind, effect_ask, hGet, hEffect, effect_pure]
      | ok later =>
          have hEffect : effect advanceInPlace cursor = (.ok (), later) :=
            performs_advance.effect_of_ok (by rw [hAdvance]; rfl)
          simp only [effect_tryCatch, effect_bind, effect_ask, hGet, hEffect, effect_pure]

theorem effect_next_between_cons :
    effect nextInPlace (between seen (value :: later)) =
      (.ok (some value), between (seen ++ [value]) later) := by
  rw [effect_next, next?_between_cons]

theorem effect_next_between_nil :
    effect nextInPlace (between seen []) = (.ok none, between seen []) := by
  rw [effect_next, next?_between_nil]

/-- A procedure that passes an entry and says so, or stays behind the last one and does not
say that it has moved. -/
structure MovesOn {α : Type} (procedure : Procedure Cursor α) (moved : α → Bool) : Prop where
  onEntry : ∀ seen value later, ∃ reply, moved reply = true ∧
    effect procedure (between seen (value :: later)) =
      (.ok reply, between (seen ++ [value]) later)
  atEnd : ∀ seen, ∃ outcome, (∀ reply, outcome = .ok reply → moved reply = false) ∧
    effect procedure (between seen []) = (outcome, between seen [])

theorem movesOn_advance : MovesOn advanceInPlace fun _ => true where
  onEntry _ _ _ := ⟨(), rfl, effect_advance_between_cons⟩
  atEnd _ := ⟨_, by simp, effect_advance_between_nil⟩

theorem movesOn_next : MovesOn nextInPlace Option.isSome where
  onEntry _ value _ := ⟨some value, rfl, effect_next_between_cons⟩
  atEnd _ := ⟨_, by simp, effect_next_between_nil⟩

/-! ## Sums -/

/-- A difference between words in order leads from the first to the second. -/
theorem toNat_add_sub {first second : UInt64} (h : first ≤ second) :
    first.toNat + (second - first).toNat = second.toNat := by
  rw [UInt64.toNat_sub_of_le _ _ h]
  exact Nat.add_sub_of_le (UInt64.le_iff_toNat_le.mp h)

/-- In front of an entry of an ascending sequence the sum is this entry, and behind the last
one nothing is added. -/
theorem sumFits_of_ascending (h : Ascending (seen ++ later)) (width : Nat) :
    SumFits ⟨codes 0 (seen ++ later), (codes 0 seen).length, seen.getLastD 0, width⟩ := by
  unfold SumFits
  simp only [codes_append, List.drop_left]
  cases later with
  | nil => exact (seen.getLastD 0).toNat_lt
  | cons value later =>
      have hLast : seen.getLastD 0 ≤ value := by
        cases seen using List.reverseRecOn with
        | nil => exact UInt64.zero_le
        | append_singleton seen last =>
            rw [List.getLastD_concat]
            exact (List.pairwise_append.mp h).2.2 last (by simp) value (by simp)
      rw [codes, Varint.decode_encode_append, toNat_add_sub hLast]
      exact value.toNat_lt

end Cursor

/-! ## Sessions -/

/-- A cursor stands between the entries that it has passed and the others. -/
def Tracked.Standing (entries : List UInt64) (tracked : Tracked) : Prop :=
  ∃ seen later, entries = seen ++ later ∧ tracked = ⟨.between seen later, seen.length⟩

variable {entries : List UInt64} {tracked : Tracked} {cursors : List Tracked}

/-- What a cursor shows is given by the entries around it. -/
theorem Tracked.Standing.follows (h : tracked.Standing entries) (hAscending : Ascending entries) :
    tracked.Follows entries := by
  obtain ⟨seen, later, rfl, rfl⟩ := h
  cases later with
  | nil =>
      refine ⟨by simp, ?_, ?_, ?_, fun _ => ?_, ?_⟩
      · simp [Cursor.isValid_between_nil]
      · simp [Cursor.position_between]
      · simp
      · exact ⟨⟨_, Cursor.get_between_nil seen, rfl⟩,
          ⟨_, Cursor.advance_between_nil seen, rfl, Cursor.effect_advance_between_nil⟩,
          Cursor.next?_between_nil seen, Cursor.effect_next_between_nil⟩
      · simp [Cursor.isValid_between_nil]
  | cons value later =>
      refine ⟨by simp, ?_, ?_, ?_, ?_, fun _ => ?_⟩
      · simp [Cursor.isValid_between_cons]
      · simp [Cursor.position_between]
      · simp only [List.getElem?_append_right (Nat.le_refl _), Nat.sub_self,
          List.getElem?_cons_zero, Option.some.injEq, forall_eq']
        refine ⟨Cursor.get_between_cons _ _ _, _, Cursor.advance_between_cons _ _ _,
          Cursor.next?_between_cons _ _ _, Cursor.effect_advance_between_cons,
          Cursor.effect_next_between_cons, ?_⟩
        rw [Cursor.position_between, List.take_length_add_append]
        rfl
      · simp
      -- The sum is formed behind the code of the entry, where the cursor goes next.
      · rw [List.append_cons] at hAscending
        have hSum := Cursor.sumFits_of_ascending hAscending
          (Varint.encode (value - seen.getLastD 0)).length
        simpa [Cursor.between, codes_append, codes] using hSum

/-- A new cursor has passed no entry. -/
theorem standing_start (entries : List UInt64) :
    Tracked.Standing entries ⟨(ofEntries entries).cursor, 0⟩ :=
  ⟨[], entries, rfl, by rw [cursor_ofEntries, List.length_nil]⟩

/-- Moving on takes a cursor behind its entry and counts, or does neither. -/
theorem Tracked.Standing.after {α : Type} {procedure : Procedure Cursor α} {moved : α → Bool}
    (h : tracked.Standing entries) (hMoves : Cursor.MovesOn procedure moved) :
    (tracked.after procedure moved).Standing entries := by
  obtain ⟨seen, later, rfl, rfl⟩ := h
  unfold Tracked.after
  cases later with
  | nil =>
      obtain ⟨outcome, hStays, hEffect⟩ := hMoves.atEnd seen
      refine ⟨seen, [], rfl, ?_⟩
      rw [hEffect]
      cases outcome with
      | ok reply => simp [hStays reply rfl]
      | error error => rfl
  | cons value later =>
      obtain ⟨reply, hMoved, hEffect⟩ := hMoves.onEntry seen value later
      refine ⟨seen ++ [value], later, by simp, ?_⟩
      simp [hEffect, hMoved]

/-- A change that keeps a property may be made to one of the items that have it. -/
theorem forall_mem_modify {α : Type} {property : α → Prop} {items : List α} {change : α → α}
    (h : ∀ item ∈ items, property item) (hChange : ∀ item, property item → property (change item))
    (number : Nat) : ∀ item ∈ items.modify number change, property item := by
  intro item hItem
  obtain ⟨position, hPosition⟩ := List.mem_iff_getElem?.mp hItem
  rw [List.getElem?_modify, Option.map_eq_map, Option.map_eq_some_iff] at hPosition
  obtain ⟨old, hOld, rfl⟩ := hPosition
  have hProperty := h old (List.mem_of_getElem? hOld)
  split
  · exact hChange old hProperty
  · exact hProperty

/-- A request leaves every cursor between the entries. -/
theorem standing_serve (h : ∀ tracked ∈ cursors, tracked.Standing entries) (request : Request) :
    ∀ tracked ∈ (ofEntries entries).serve cursors request, tracked.Standing entries := by
  cases request with
  | start =>
      intro tracked hTracked
      rcases List.mem_append.mp hTracked with hOld | hNew
      · exact h tracked hOld
      · rw [List.mem_singleton.mp hNew]
        exact standing_start entries
  | clone number =>
      intro tracked hTracked
      rcases List.mem_append.mp hTracked with hOld | hNew
      · exact h tracked hOld
      · exact h tracked (List.mem_of_getElem? (Option.mem_toList.mp hNew))
  | isValid number => exact h
  | get number => exact h
  | advance number =>
      exact forall_mem_modify h (fun _ hOld => hOld.after Cursor.movesOn_advance) number
  | next number => exact forall_mem_modify h (fun _ hOld => hOld.after Cursor.movesOn_next) number

/-- Any requests leave every cursor between the entries. -/
theorem standing_track (entries : List UInt64) (requests : List Request) :
    ∀ tracked ∈ (ofEntries entries).track requests, tracked.Standing entries := by
  unfold track
  induction requests using List.reverseRecOn with
  | nil => simp
  | append_singleton requests request ih =>
      rw [List.foldl_append]
      exact standing_serve ih request

/-- Whatever has been done to a list, and whatever its cursors are asked for, a cursor that
has been moved on `k` times stands on the entry at position `k`, or behind the last one,
and no sum that is formed on the way wraps around. -/
theorem follows_of_mem_track (operations : List Operation) (requests : List Request) :
    Cursor.SumFits ⟨(record operations).list.bytes, 0, 0, 0⟩ ∧
    ∀ tracked ∈ (record operations).list.track requests,
      tracked.Follows (record operations).accepted := by
  obtain ⟨hAscending, hList⟩ := faithful_record operations
  rw [hList]
  refine ⟨@Cursor.sumFits_of_ascending [] _ hAscending 0, fun tracked hTracked => ?_⟩
  exact (standing_track _ requests tracked hTracked).follows hAscending

/-- A word is refused, and the copy of a cursor that has been moved on once is moved on
again. -/
theorem follows_of_mem_track_clone :
    ∃ tracked ∈ (record [.push 3, .push 1, .push 300, .push 300]).list.track
        [.start, .next 0, .clone 0, .advance 1],
      tracked.moves = 2 ∧ tracked.Follows [3, 300, 300] := by
  have hAccepted : (record [.push 3, .push 1, .push 300, .push 300]).accepted =
      [3, 300, 300] := by decide +kernel
  have hMoves : ((record [.push 3, .push 1, .push 300, .push 300]).list.track
      [.start, .next 0, .clone 0, .advance 1]).map Tracked.moves = [1, 2] := by decide +kernel
  have hTwoMoves : 2 ∈ ((record [.push 3, .push 1, .push 300, .push 300]).list.track
      [.start, .next 0, .clone 0, .advance 1]).map Tracked.moves := by
    rw [hMoves]
    simp
  obtain ⟨tracked, hTracked, hTwo⟩ := List.mem_map.mp hTwoMoves
  have hFollows := (follows_of_mem_track [.push 3, .push 1, .push 300, .push 300]
    [.start, .next 0, .clone 0, .advance 1]).2 tracked hTracked
  exact ⟨tracked, hTracked, hTwo, hAccepted ▸ hFollows⟩

end ForestGraph.DeltaList
