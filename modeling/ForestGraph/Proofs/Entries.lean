import Mathlib.Data.List.Induction
import ForestGraph.DeltaList.Cursor
import ForestGraph.Proofs.Reading

/-!
# The entries of a compressed list

One list stores each sequence of words: `DeltaList.ofEntries`, whose bytes are the
codes of the differences.  Pushing goes from the list of one sequence to that of the
longer one, and a cursor reads the sequence back, as a code ends where the next one
starts.
-/

namespace ForestGraph

/-- A code takes a byte at least. -/
theorem Varint.length_encode_pos (word : UInt64) : 0 < (encode word).length :=
  List.length_pos_iff.mpr (groups_ne_nil _)

namespace DeltaList

/-- The codes of a sequence behind a word: those of the differences between neighbours. -/
def codes (last : UInt64) : List UInt64 → List UInt8
  | [] => []
  | value :: later => Varint.encode (value - last) ++ codes value later

/-- The list that stores a sequence. -/
def ofEntries (entries : List UInt64) : DeltaList :=
  ⟨codes 0 entries, entries.getLastD 0, entries.length⟩

/-- Every entry is at least the one before. -/
def Ascending (entries : List UInt64) : Prop :=
  entries.Pairwise (· ≤ ·)

theorem codes_append (last : UInt64) (entries more : List UInt64) :
    codes last (entries ++ more) =
      codes last entries ++ codes (entries.getLastD last) more := by
  induction entries generalizing last with
  | nil => simp [codes]
  | cons value later ih =>
      simp only [List.cons_append, codes, ih, List.append_assoc, List.getLastD_cons]

/-- Every entry takes a byte at least. -/
theorem length_le_length_codes (last : UInt64) (entries : List UInt64) :
    entries.length ≤ (codes last entries).length := by
  induction entries generalizing last with
  | nil => simp
  | cons value later ih =>
      have hCode := Varint.length_encode_pos (value - last)
      have hLater := ih value
      simp only [codes, List.length_cons, List.length_append]
      omega

/-! ## Pushing -/

/-- A word may follow an ascending sequence that is empty or ends no later. -/
theorem ascending_concat_iff {entries : List UInt64} {value : UInt64} :
    Ascending (entries ++ [value]) ↔
      Ascending entries ∧ ∀ last ∈ entries.getLast?, last ≤ value := by
  cases entries using List.reverseRecOn with
  | nil => simp [Ascending]
  | append_singleton entries last =>
      simp only [Ascending, List.pairwise_append, List.pairwise_singleton, List.mem_singleton,
        List.mem_append, List.getLast?_append, List.getLast?_singleton, Option.some_or,
        Option.mem_some_iff, forall_eq, forall_eq', true_and]
      constructor
      · rintro ⟨hEntries, hValue⟩
        exact ⟨hEntries, hValue last (.inr rfl)⟩
      · rintro ⟨hEntries, hValue⟩
        refine ⟨hEntries, ?_⟩
        rintro entry (hEntry | rfl)
        · exact UInt64.le_trans (hEntries.2 entry hEntry) hValue
        · exact hValue

/-- A push is accepted if the sequence is empty or ends no later, and stores the
longer sequence. -/
theorem push_ofEntries_eq_ok_iff {entries : List UInt64} {value : UInt64} {result : DeltaList} :
    (ofEntries entries).push value = .ok result ↔
      (∀ last ∈ entries.getLast?, last ≤ value) ∧ result = ofEntries (entries ++ [value]) := by
  have hLonger : ofEntries (entries ++ [value]) =
      ⟨codes 0 entries ++ Varint.encode (value - entries.getLastD 0), value,
        entries.length + 1⟩ := by
    simp [ofEntries, codes_append, codes]
  have hAccepted : (entries.length = 0 ∨ entries.getLastD 0 ≤ value) ↔
      ∀ last ∈ entries.getLast?, last ≤ value := by
    cases entries using List.reverseRecOn <;> simp
  rw [hLonger, ← hAccepted]
  by_cases hLast : entries.length = 0 ∨ entries.getLastD 0 ≤ value
  · simp only [push, ofEntries, hLast, if_true, true_and, Except.ok.injEq]
    exact eq_comm
  · simp only [push, ofEntries, hLast, if_false, false_and, reduceCtorEq]

/-- Words are pushed one after the other as long as they ascend. -/
theorem foldlM_push_eq_ok_iff {entries values : List UInt64} {result : DeltaList}
    (h : Ascending entries) :
    values.foldlM push (ofEntries entries) = .ok result ↔
      Ascending (entries ++ values) ∧ result = ofEntries (entries ++ values) := by
  induction values generalizing entries with
  | nil => simp [h, @eq_comm _ result]
  | cons value later ih =>
      rw [List.foldlM_cons, except_bind_eq_ok_iff, List.append_cons]
      constructor
      · rintro ⟨longer, hPush, hLater⟩
        obtain ⟨hLast, rfl⟩ := push_ofEntries_eq_ok_iff.mp hPush
        exact (ih (ascending_concat_iff.mpr ⟨h, hLast⟩)).mp hLater
      · rintro ⟨hAll, hResult⟩
        have hLonger : Ascending (entries ++ [value]) := (List.pairwise_append.mp hAll).1
        exact ⟨_, push_ofEntries_eq_ok_iff.mpr ⟨(ascending_concat_iff.mp hLonger).2, rfl⟩,
          (ih hLonger).mpr ⟨hAll, hResult⟩⟩

/-- Exactly the ascending sequences have a list. -/
theorem ofSorted_eq_ok_iff {values : List UInt64} {result : DeltaList} :
    ofSorted values = .ok result ↔ Ascending values ∧ result = ofEntries values :=
  foldlM_push_eq_ok_iff List.Pairwise.nil

/-! ## Reading -/

namespace Cursor

/-- The cursor behind some entries of a list and in front of the others. -/
def between (seen : List UInt64) : List UInt64 → Cursor
  | [] => ⟨codes 0 seen, (codes 0 seen).length, seen.getLastD 0, 0⟩
  | value :: later =>
      ⟨codes 0 (seen ++ value :: later), (codes 0 seen).length, value,
        (Varint.encode (value - seen.getLastD 0)).length⟩

/-- A cursor in front of an entry stands on it. -/
theorem isValid_between_cons (seen : List UInt64) (value : UInt64) (later : List UInt64) :
    (between seen (value :: later)).isValid = true := by
  have hCode := Varint.length_encode_pos (value - seen.getLastD 0)
  simp only [isValid, between, codes_append, codes, List.length_append, decide_eq_true_eq]
  omega

/-- A cursor behind all entries stands on none. -/
theorem isValid_between_nil (seen : List UInt64) : (between seen []).isValid = false := by
  simp [isValid, between]

/-- Behind the codes of some entries, the code of the next one is read. -/
theorem settle_eq_between (seen rest : List UInt64) (width : Nat) :
    settle ⟨codes 0 (seen ++ rest), (codes 0 seen).length, seen.getLastD 0, width⟩ =
      between seen rest := by
  cases rest with
  | nil => simp [settle, isValid, between]
  | cons value later =>
      have hValid : isValid ⟨codes 0 (seen ++ value :: later), (codes 0 seen).length,
          seen.getLastD 0, width⟩ = true := isValid_between_cons seen value later
      have hCodes : (codes 0 (seen ++ value :: later)).drop (codes 0 seen).length =
          Varint.encode (value - seen.getLastD 0) ++ codes value later := by
        simp only [codes_append, codes, List.drop_left]
      have hValue : seen.getLastD 0 + (value - seen.getLastD 0) = value := by
        rw [UInt64.add_comm, UInt64.sub_add_cancel]
      simp only [settle, hValid, if_true, hCodes, Varint.decode_encode_append, hValue, between]

theorem get_between_cons (seen : List UInt64) (value : UInt64) (later : List UInt64) :
    (between seen (value :: later)).get = .ok value := by
  rw [get, isValid_between_cons, if_pos rfl, between]

/-- Moving on, a cursor passes one entry. -/
theorem advance_between_cons (seen : List UInt64) (value : UInt64) (later : List UInt64) :
    (between seen (value :: later)).advance = .ok (between (seen ++ [value]) later) := by
  rw [advance, isValid_between_cons, if_pos rfl,
    ← settle_eq_between (seen ++ [value]) later (Varint.encode (value - seen.getLastD 0)).length]
  simp only [between, codes_append, codes, List.append_assoc, List.singleton_append,
    List.length_append, List.append_nil, List.getLastD_concat]

theorem next?_between_cons (seen : List UInt64) (value : UInt64) (later : List UInt64) :
    (between seen (value :: later)).next? = some (value, between (seen ++ [value]) later) := by
  rw [next?, get_between_cons, advance_between_cons]

theorem next?_between_nil (seen : List UInt64) : (between seen []).next? = none := by
  simp [next?, get, isValid_between_nil]

/-- The entries that are taken are the next ones, as far as there are any. -/
theorem take_between (seen rest : List UInt64) (count : Nat) :
    (between seen rest).take count =
      (rest.take count, between (seen ++ rest.take count) (rest.drop count)) := by
  induction count generalizing seen rest with
  | zero => simp [take]
  | succ count ih =>
      cases rest with
      | nil => simp [take, next?_between_nil]
      | cons value later => simp [take, next?_between_cons, ih]

/-- There are bytes enough for all entries that are left. -/
theorem drain_between (seen rest : List UInt64) :
    (between seen rest).drain = (rest, between (seen ++ rest) []) := by
  have hCount : rest.length ≤ (between seen rest).bytes.length - (between seen rest).position := by
    cases rest with
    | nil => simp
    | cons value later =>
        have hCodes := length_le_length_codes (seen.getLastD 0) (value :: later)
        simp only [between, codes_append, List.length_append]
        omega
  rw [drain, take_between, List.take_of_length_le hCount, List.drop_of_length_le hCount]

end Cursor

/-- The cursor of a list stands in front of all entries. -/
theorem cursor_ofEntries (entries : List UInt64) :
    (ofEntries entries).cursor = .between [] entries :=
  Cursor.settle_eq_between [] entries 0

/-- The entries of the list of a sequence are the sequence. -/
@[simp] theorem toList_ofEntries (entries : List UInt64) :
    (ofEntries entries).toList = entries := by
  rw [toList, cursor_ofEntries, Cursor.drain_between]

/-- Different sequences have different lists. -/
theorem ofEntries_inj {entries others : List UInt64} :
    ofEntries others = ofEntries entries ↔ others = entries := by
  constructor
  · intro h
    simpa using congrArg toList h
  · rintro rfl
    rfl

end DeltaList

end ForestGraph
