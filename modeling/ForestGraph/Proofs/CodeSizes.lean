import Mathlib.Algebra.Order.Floor.Div
import Mathlib.Data.Nat.Size
import ForestGraph.Proofs.Recordings

/-!
# The space that entries take

The code of a number has one byte for every seven of its bits, and one byte at least.
Bytes with less room cannot stand for the number, so no code can be shortened.  The bytes
of a compressed list are the codes of the differences between its entries, one behind the
other, whatever was done to the list before.
-/

namespace ForestGraph

namespace Varint

/-! ## Groups of seven bits -/

/-- A byte for every seven bits of a number, and one byte at least. -/
def bytesFor (number : Nat) : Nat :=
  max 1 (number.size ⌈/⌉ payloadBits)

/-- The number that the payloads of some bytes make up, the first byte the least
significant. -/
def payload : List UInt8 → Nat
  | [] => 0
  | byte :: rest => byte.toNat % 128 + 128 * payload rest

/-- So many bytes have room for so large a number. -/
theorem payload_lt (bytes : List UInt8) : payload bytes < 2 ^ (7 * bytes.length) := by
  induction bytes with
  | nil => simp [payload]
  | cons byte rest ih =>
      have hRoom : 2 ^ (7 * (rest.length + 1)) = 128 * 2 ^ (7 * rest.length) := by
        rw [Nat.mul_succ, Nat.pow_add, Nat.mul_comm]
      rw [payload, List.length_cons, hRoom]
      omega

/-- What is read is the payload of the bytes that are read. -/
theorem readGroups_eq_payload (budget : Nat) (bytes : List UInt8) :
    (readGroups budget bytes).1 = payload (bytes.take (readGroups budget bytes).2) := by
  induction budget generalizing bytes with
  | zero => rfl
  | succ budget ih =>
      cases bytes with
      | nil => rfl
      | cons byte rest =>
          by_cases hLast : byte.toNat < 128
          · simp [readGroups, hLast, payload, Nat.mod_eq_of_lt hLast]
          · simp [readGroups, hLast, payload, ih rest]

theorem payload_groups (number : Nat) : payload (groups number) = number := by
  have hRead := readGroups_groups number (groups number).length [] le_rfl
  rw [List.append_nil] at hRead
  have hPayload := readGroups_eq_payload (groups number).length (groups number)
  rw [hRead, List.take_length] at hPayload
  exact hPayload.symm

/-- A number needs no more bytes than have room for it. -/
theorem length_groups_le_iff {number count : Nat} :
    (groups number).length ≤ count + 1 ↔ number < 2 ^ (7 * (count + 1)) := by
  have hRoom : Nat.pow 128 (count + 1) = 2 ^ (7 * (count + 1)) := by
    rw [Nat.pow_mul]
    rfl
  constructor
  · intro hLength
    have hPayload := payload_lt (groups number)
    rw [payload_groups] at hPayload
    exact hPayload.trans_le (Nat.pow_le_pow_right (by decide) (Nat.mul_le_mul_left 7 hLength))
  · intro hNumber
    exact length_groups_le (hRoom ▸ hNumber)

/-- The code of a number has as many bytes as its bits ask for. -/
theorem length_groups (number : Nat) : (groups number).length = bytesFor number := by
  refine eq_of_forall_ge_iff fun count => ?_
  unfold bytesFor
  cases count with
  | zero =>
      have hSome := List.length_pos_iff.mpr (groups_ne_nil number)
      simp only [Nat.le_zero, Nat.max_eq_zero_iff, Nat.one_ne_zero, false_and, iff_false]
      omega
  | succ count =>
      have hBits : (0 : Nat) < payloadBits := by decide
      rw [length_groups_le_iff, max_le_iff, ceilDiv_le_iff_le_mul hBits, Nat.size_le]
      exact ⟨fun h => ⟨Nat.le_add_left 1 count, h⟩, And.right⟩

/-- Bytes that are read as a word, all of them, are no fewer than those of its code. -/
theorem length_encode_le_of_decode {word : UInt64} {bytes : List UInt8} (hSome : bytes ≠ [])
    (hDecode : decode bytes = (word, bytes.length)) : (encode word).length ≤ bytes.length := by
  obtain ⟨hWord, hLength⟩ := Prod.mk.inj hDecode
  have hPayload := readGroups_eq_payload maxBytes bytes
  rw [hLength, List.take_length] at hPayload
  obtain ⟨count, hCount⟩ : ∃ count, bytes.length = count + 1 :=
    Nat.exists_eq_add_one.mpr (List.length_pos_iff.mpr hSome)
  by_cases hLong : maxBytes ≤ bytes.length
  · exact (length_encode_le word).trans hLong
  -- Fewer than ten bytes have no room for more than a word, so nothing is cut off.
  · have hRoom := payload_lt bytes
    have hFits : payload bytes < 2 ^ 64 :=
      hRoom.trans (Nat.pow_lt_pow_right (by decide) (by unfold maxBytes at hLong; omega))
    have hNumber : word.toNat = payload bytes := by
      rw [← hWord, hPayload, Nat.toUInt64, UInt64.toNat_ofNat', Nat.mod_eq_of_lt hFits]
    rw [encode, hCount, length_groups_le_iff, hNumber, ← hCount]
    exact hRoom

/-! ## The writer -/

theorem toNat_shiftRight_seven (word : UInt64) : (word >>> 7).toNat = word.toNat / 128 := by
  rw [UInt64.toNat_shiftRight, Nat.shiftRight_eq_div_pow]
  rfl

/-- A word written by shifting out groups of seven bits as long as some are left above. -/
def writeShifted (word : UInt64) : List UInt8 :=
  if payloadMask.toUInt64 < word then
    (word.toUInt8 &&& payloadMask ||| continuationBit) :: writeShifted (word >>> 7)
  else [word.toUInt8]
termination_by word.toNat
decreasing_by
  rename_i hLarge
  have hLarge : 127 < word.toNat := hLarge
  rw [toNat_shiftRight_seven]
  omega

/-- The mask and the continuation bit make a byte of the lowest group. -/
theorem toUInt8_and_or (word : UInt64) :
    word.toUInt8 &&& payloadMask ||| continuationBit = (word.toNat % 128 + 128).toUInt8 := by
  have hGroup : (word.toUInt8 &&& payloadMask).toNat = word.toNat % 128 := by
    rw [UInt8.toNat_and, UInt64.toNat_toUInt8]
    show word.toNat % 2 ^ 8 &&& 2 ^ 7 - 1 = _
    rw [Nat.and_two_pow_sub_one_eq_mod]
    omega
  have hSum : word.toNat % 128 ||| 2 ^ 7 * 1 = 2 ^ 7 * 1 + word.toNat % 128 := by
    rw [Nat.or_comm, ← Nat.two_pow_add_eq_or_of_lt (Nat.mod_lt _ (by decide))]
  apply UInt8.toNat_inj.mp
  rw [UInt8.toNat_or, hGroup]
  show word.toNat % 128 ||| 2 ^ 7 * 1 = _
  rw [hSum, Nat.toUInt8, UInt8.toNat_ofNat']
  omega

/-- Shifting writes the code. -/
theorem writeShifted_eq_encode (word : UInt64) : writeShifted word = encode word := by
  induction hNumber : word.toNat using Nat.strongRecOn generalizing word with
  | ind number ih =>
      have hShift := toNat_shiftRight_seven word
      rw [writeShifted, encode]
      by_cases hLarge : payloadMask.toUInt64 < word
      · have hAbove : 127 < word.toNat := hLarge
        rw [if_pos hLarge, groups_of_le hAbove, toUInt8_and_or,
          ih (word >>> 7).toNat (by omega) (word >>> 7) rfl, encode, hShift]
      · have hBelow : ¬ 127 < word.toNat := hLarge
        rw [if_neg hLarge, groups_of_lt (by omega)]
        rfl

end Varint

namespace DeltaList

/-! ## Entries -/

/-- The differences between neighbours, the first entry counted from zero. -/
def gaps (entries : List UInt64) : List Nat :=
  entries.zipWith (fun value before => value.toNat - before.toNat) (0 :: entries)

/-- The bytes of one entry, which encode its difference to the entry before. -/
structure EntryCode (gap : Nat) (bytes : List UInt8) : Prop where
  /-- They are what shifting writes. -/
  written : bytes = Varint.writeShifted gap.toUInt64
  /-- The difference is read back from them, whatever comes behind. -/
  read : ∀ rest, Varint.decode (bytes ++ rest) = (gap.toUInt64, bytes.length)
  length : bytes.length = Varint.bytesFor gap
  nonempty : 1 ≤ bytes.length
  short : bytes.length ≤ 10
  /-- No other bytes that are read as the difference are fewer. -/
  shortest : ∀ others, others ≠ [] → Varint.decode others = (gap.toUInt64, others.length) →
    bytes.length ≤ others.length

/-- The bytes of a list are the codes of its entries. -/
structure StoresCodes (list : DeltaList) (entries : List UInt64) : Prop where
  divided : ∃ parts : List (List UInt8), list.bytes = parts.flatten ∧
    List.Forall₂ EntryCode (gaps entries) parts
  byteLength : list.byteLength = ((gaps entries).map Varint.bytesFor).sum

/-- The code of a word is that of an entry. -/
theorem entryCode_encode {gap : Nat} {word : UInt64} (hWord : word.toNat = gap) :
    EntryCode gap (Varint.encode word) := by
  subst hWord
  have hSame : word.toNat.toUInt64 = word := by simp
  have hLength := Varint.length_groups word.toNat
  refine ⟨?_, fun rest => ?_, hLength, Varint.length_encode_pos word,
    Varint.length_encode_le word, fun others hSome hDecode => ?_⟩
  · rw [hSame, Varint.writeShifted_eq_encode]
  · rw [hSame, Varint.decode_encode_append]
  · exact Varint.length_encode_le_of_decode hSome (hSame ▸ hDecode)

/-- The codes behind a word, one for every entry. -/
theorem codes_eq_flatten {last : UInt64} {entries : List UInt64}
    (h : Ascending (last :: entries)) :
    ∃ parts : List (List UInt8), codes last entries = parts.flatten ∧
      List.Forall₂ EntryCode
        (entries.zipWith (fun value before => value.toNat - before.toNat) (last :: entries))
        parts := by
  induction entries generalizing last with
  | nil => exact ⟨[], rfl, .nil⟩
  | cons value later ih =>
      obtain ⟨hFirst, hLater⟩ := List.pairwise_cons.mp h
      obtain ⟨parts, hParts, hCodes⟩ := ih hLater
      have hGap := UInt64.toNat_sub_of_le value last (hFirst value List.mem_cons_self)
      refine ⟨Varint.encode (value - last) :: parts, ?_, .cons (entryCode_encode hGap) hCodes⟩
      rw [codes, hParts, List.flatten_cons]

/-- The list of an ascending sequence stores its codes. -/
theorem storesCodes_ofEntries {entries : List UInt64} (h : Ascending entries) :
    (ofEntries entries).StoresCodes entries := by
  have hFromZero : Ascending (0 :: entries) :=
    List.pairwise_cons.mpr ⟨fun entry _ => UInt64.zero_le, h⟩
  obtain ⟨parts, hParts, hCodes⟩ := codes_eq_flatten hFromZero
  refine ⟨⟨parts, hParts, hCodes⟩, ?_⟩
  have hLengths : parts.map List.length = (gaps entries).map Varint.bytesFor := by
    rw [eq_comm, ← List.forall₂_eq_eq_eq, List.forall₂_map_left_iff, List.forall₂_map_right_iff]
    exact hCodes.imp fun _ _ hCode => hCode.length.symm
  show (codes 0 entries).length = _
  rw [hParts, List.length_flatten, hLengths]

/-- Exactly the ascending sequences have a list, and its bytes are their codes: for each
entry as many bytes as its difference to the entry before has groups of seven bits, and one
at least.  The same holds of every list in use and the words it has accepted. -/
theorem byteLength_by_gaps :
    (∀ values : List UInt64, values.Pairwise (· ≤ ·) ↔
      ∃ list, ofSorted values = .ok list ∧ list.StoresCodes values) ∧
    ∀ operations : List Operation,
      (record operations).list.StoresCodes (record operations).accepted := by
  refine ⟨fun values => ⟨fun h => ?_, ?_⟩, fun operations => ?_⟩
  · exact ⟨ofEntries values, ofSorted_eq_ok_iff.mpr ⟨h, rfl⟩, storesCodes_ofEntries h⟩
  · rintro ⟨list, hList, _⟩
    exact (ofSorted_eq_ok_iff.mp hList).1
  · have h := faithful_record operations
    rw [h.list_eq]
    exact storesCodes_ofEntries h.ascending

end DeltaList

end ForestGraph
