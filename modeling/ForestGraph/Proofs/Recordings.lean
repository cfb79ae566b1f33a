import ForestGraph.Proofs.Entries

/-!
# Compressed lists in use

A list is filled, emptied and replaced in any order, and pushes are refused in
between.  At any time it represents the words that it has accepted since it was last
emptied, and its bytes are those of no other sequence.
-/

namespace ForestGraph.DeltaList

/-- What can be asked of a list. -/
inductive Operation where
  | push (value : UInt64)
  | reset
  | reserve (entries : Nat)
  /-- Puts the list of a sequence in place, if there is one. -/
  | replace (values : List UInt64)

/-- A list in use, and the words it has accepted since it was last emptied. -/
structure Recording where
  list : DeltaList
  accepted : List UInt64

/-- What an operation does to a list in use; one that fails does nothing. -/
def Recording.after (recording : Recording) : Operation → Recording
  | .push value =>
      match recording.list.push value with
      | .ok longer => ⟨longer, recording.accepted ++ [value]⟩
      | .error _ => recording
  | .reset => ⟨recording.list.reset, []⟩
  | .reserve entries => ⟨recording.list.reserve entries, recording.accepted⟩
  | .replace values =>
      match ofSorted values with
      | .ok list => ⟨list, values⟩
      | .error _ => recording

/-- The list that is left by operations on an empty one. -/
def record (operations : List Operation) : Recording :=
  operations.foldl Recording.after ⟨empty, []⟩

/-- A list and the sequence that it stands for, as far as can be seen from outside. -/
structure Represents (list : DeltaList) (entries : List UInt64) : Prop where
  sorted : entries.Pairwise (· ≤ ·)
  push : ∀ value, (∃ longer, list.push value = .ok longer) ↔
    entries = [] ∨ ∃ last, entries.getLast? = some last ∧ last ≤ value
  size : list.size = entries.length
  isEmpty : list.isEmpty = true ↔ entries = []
  /-- The empty list has no maximum. -/
  maxOfEmpty : entries = [] →
    ∃ error, list.max = .error error ∧ error.category = .invalidArgument
  /-- The maximum is the last entry and no entry is greater. -/
  max : ∀ last, entries.getLast? = some last →
    list.max = .ok last ∧ ∀ entry ∈ entries, entry ≤ last
  toList : list.toList = entries
  /-- However many entries are asked for, those that there are come in order. -/
  take : ∀ count, (list.cursor.take count).1 = entries.take count

/-! ## One operation -/

/-- The list of an ascending sequence represents it. -/
theorem represents_ofEntries {entries : List UInt64} (h : Ascending entries) :
    (ofEntries entries).Represents entries where
  sorted := h
  push value := by
    simp only [push_ofEntries_eq_ok_iff, exists_and_left, exists_eq, and_true]
    cases entries using List.reverseRecOn <;> simp
  size := rfl
  isEmpty := by simp [isEmpty, ofEntries]
  maxOfEmpty hEmpty := ⟨.maxOfEmptyList, by simp [hEmpty, ofEntries, DeltaList.max], rfl⟩
  max last hLast := by
    obtain ⟨before, rfl⟩ := List.getLast?_eq_some_iff.mp hLast
    refine ⟨by simp [ofEntries, DeltaList.max], ?_⟩
    have hBefore := (List.pairwise_append.mp h).2.2
    intro entry hEntry
    rcases List.mem_append.mp hEntry with hMem | hMem
    · exact hBefore entry hMem last (by simp)
    · simp [List.mem_singleton.mp hMem]
  toList := toList_ofEntries entries
  take count := by rw [cursor_ofEntries, Cursor.take_between]

/-- A recording in which the list is the one of the words accepted. -/
structure Recording.Faithful (recording : Recording) : Prop where
  ascending : Ascending recording.accepted
  list_eq : recording.list = ofEntries recording.accepted

/-- No operation, whether it succeeds or fails, parts the list from the words. -/
theorem Recording.Faithful.after {recording : Recording} (h : recording.Faithful)
    (operation : Operation) : (recording.after operation).Faithful := by
  cases operation with
  | push value =>
      simp only [Recording.after]
      split
      · rename_i longer hPush
        rw [h.list_eq, push_ofEntries_eq_ok_iff] at hPush
        exact ⟨ascending_concat_iff.mpr ⟨h.ascending, hPush.1⟩, hPush.2⟩
      · exact h
  | reset => exact ⟨.nil, rfl⟩
  | reserve entries => exact h
  | replace values =>
      simp only [Recording.after]
      split
      · rename_i list hSorted
        obtain ⟨hAscending, hList⟩ := ofSorted_eq_ok_iff.mp hSorted
        exact ⟨hAscending, hList⟩
      · exact h

/-! ## All operations -/

theorem Recording.Faithful.foldl_after {recording : Recording} (h : recording.Faithful)
    (operations : List Operation) : (operations.foldl Recording.after recording).Faithful := by
  induction operations generalizing recording with
  | nil => exact h
  | cons operation later ih => exact ih (h.after operation)

theorem faithful_record (operations : List Operation) : (record operations).Faithful := by
  have hStart : Recording.Faithful ⟨empty, []⟩ := ⟨.nil, rfl⟩
  exact hStart.foldl_after operations

/-- After any operations a list represents the words that it has accepted since it was
last emptied; the sequences that can replace it are the ascending ones; and two lists
are equal exactly when they represent the same sequence. -/
theorem record_represents (operations : List Operation) :
    (record operations).list.Represents (record operations).accepted ∧
    (∀ values, (∃ list, ofSorted values = .ok list) ↔ values.Pairwise (· ≤ ·)) ∧
    ∀ others, (record others).list = (record operations).list ↔
      (record others).accepted = (record operations).accepted := by
  have h := faithful_record operations
  refine ⟨?_, fun values => ?_, fun others => ?_⟩
  · rw [h.list_eq]
    exact represents_ofEntries h.ascending
  · simp only [ofSorted_eq_ok_iff, exists_and_left, exists_eq, and_true]
    rfl
  · rw [h.list_eq, (faithful_record others).list_eq]
    exact ofEntries_inj

end ForestGraph.DeltaList
