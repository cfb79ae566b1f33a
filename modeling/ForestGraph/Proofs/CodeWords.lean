import Mathlib.Data.Nat.Bitwise
import ForestGraph.Proofs.CodeSizes

/-!
# Codes one behind the other

The code of a word ends at its first byte without the continuation bit.  So the word is
read back from its code whatever follows, no code is the beginning of another one, and
codes that are written one behind the other tell the words.  The writer and the reader
are followed bit by bit: the writer ends after nine rounds, and the reader never shifts
by the width of a word or more, whatever the bytes.
-/

namespace ForestGraph.Varint

/-! ## The loops -/

/-- Writes a word behind the bytes that are there, in so many rounds and a last byte. -/
def writeWithin (rounds : Nat) (word : UInt64) (out : List UInt8) : Option (List UInt8) :=
  if payloadMask.toUInt64 < word then
    match rounds with
    | 0 => none
    | rounds + 1 =>
        writeWithin rounds (word >>> payloadBits.toUInt64)
          (out ++ [word.toUInt8 &&& payloadMask ||| continuationBit])
  else some (out ++ [word.toUInt8])

/-- A word shifted to the left, by less than its width. -/
def shiftLeft? (word : UInt64) (amount : Nat) : Option UInt64 :=
  if amount < 64 then some (word <<< amount.toUInt64) else none

/-- Puts the payloads of bytes into a word, the next one at a given place, and counts the
bytes, up to the first without the continuation bit. -/
def readShifted (word : UInt64) (shift count : Nat) : List UInt8 → Option (UInt64 × Nat)
  | [] => some (word, count)
  | byte :: rest =>
      match shiftLeft? (byte &&& payloadMask).toUInt64 shift with
      | none => none
      | some part =>
          if byte &&& continuationBit = 0 then some (word ||| part, count + 1)
          else readShifted (word ||| part) (shift + payloadBits) (count + 1) rest

/-- The word at the front of `bytes` and the length of its code, put together by shifts. -/
def decodeShifted? (bytes : List UInt8) : Option (UInt64 × Nat) :=
  readShifted 0 0 0 (bytes.take maxBytes)

/-! ## Writing -/

theorem encode_eq (word : UInt64) :
    encode word =
      if payloadMask.toUInt64 < word then
        (word.toUInt8 &&& payloadMask ||| continuationBit) ::
          encode (word >>> payloadBits.toUInt64)
      else [word.toUInt8] := by
  rw [← writeShifted_eq_encode, ← writeShifted_eq_encode, writeShifted]
  rfl

/-- The loop ends if the code has no more than a byte for each round and a last one. -/
theorem writeWithin_eq (rounds : Nat) (word : UInt64) (out : List UInt8) :
    writeWithin rounds word out =
      if (encode word).length ≤ rounds + 1 then some (out ++ encode word) else none := by
  induction rounds generalizing word out with
  | zero =>
      rw [writeWithin, encode_eq]
      split
      · have hMore := length_encode_pos (word >>> payloadBits.toUInt64)
        rw [if_neg (by rw [List.length_cons]; omega)]
      · rfl
  | succ rounds ih =>
      rw [writeWithin, encode_eq]
      split
      · simp only [ih, List.length_cons, Nat.add_le_add_iff_right, List.append_assoc,
          List.singleton_append]
      · rw [if_pos (by simp)]

/-- The loop ends after nine rounds. -/
theorem writeWithin_nine (word : UInt64) (out : List UInt8) :
    writeWithin 9 word out = some (out ++ encode word) := by
  have hShort : (encode word).length ≤ 9 + 1 := length_encode_le word
  rw [writeWithin_eq, if_pos hShort]

/-! ## Bytes -/

theorem toNat_and_payloadMask (byte : UInt8) : (byte &&& payloadMask).toNat = byte.toNat % 128 := by
  rw [UInt8.toNat_and]
  exact Nat.and_two_pow_sub_one_eq_mod byte.toNat 7

/-- The continuation bit is that of half of all bytes. -/
theorem and_continuationBit_eq_zero_iff (byte : UInt8) :
    byte &&& continuationBit = 0 ↔ byte.toNat < 128 := by
  have hByte := byte.toNat_lt
  rw [← UInt8.toNat_inj, UInt8.toNat_and]
  show byte.toNat &&& 2 ^ 7 = 0 ↔ _
  rw [Nat.and_two_pow, Nat.testBit_eq_decide_div_mod_eq]
  by_cases hSmall : byte.toNat < 128
  · have hHigh : byte.toNat / 128 % 2 = 0 := by omega
    simp [hHigh, hSmall]
  · have hHigh : byte.toNat / 128 % 2 = 1 := by omega
    simp [hHigh, hSmall]

/-- All bytes of a code but the last one have the continuation bit. -/
theorem exists_groups_eq (number : Nat) :
    ∃ front last, groups number = front ++ [last] ∧
      (∀ byte ∈ front, byte &&& continuationBit ≠ 0) ∧ last &&& continuationBit = 0 := by
  induction number using Nat.strongRecOn with
  | ind number ih =>
      by_cases hSmall : number < 128
      · refine ⟨[], number.toUInt8, groups_of_lt hSmall, by simp, ?_⟩
        rw [and_continuationBit_eq_zero_iff]
        simp
        omega
      · obtain ⟨front, last, hGroups, hFront, hLast⟩ := ih (number / 128) (by omega)
        refine ⟨(number % 128 + 128).toUInt8 :: front, last, ?_, ?_, hLast⟩
        · rw [groups_of_le (Nat.not_lt.mp hSmall), hGroups, List.cons_append]
        · rw [List.forall_mem_cons]
          refine ⟨?_, hFront⟩
          rw [ne_eq, and_continuationBit_eq_zero_iff]
          simp
          omega

/-! ## Reading -/

/-- A payload that is put behind the bits that are there is added, as far as it fits. -/
theorem exists_shiftLeft? {word : UInt64} {count : Nat} (byte : UInt8) (hCount : count < maxBytes)
    (hBelow : word.toNat < 2 ^ (7 * count)) :
    ∃ part, shiftLeft? (byte &&& payloadMask).toUInt64 (7 * count) = some part ∧
      (word ||| part).toNat = (word.toNat + 2 ^ (7 * count) * (byte.toNat % 128)) % 2 ^ 64 := by
  have hAmount : 7 * count < 64 := by
    unfold maxBytes at hCount
    omega
  refine ⟨_, if_pos hAmount, ?_⟩
  generalize 7 * count = shift at hBelow hAmount
  have hWidth : 2 ^ 64 = 2 ^ shift * 2 ^ (64 - shift) := by
    rw [← Nat.pow_add]
    congr 1
    omega
  have hPart : ((byte &&& payloadMask).toUInt64 <<< shift.toUInt64).toNat =
      2 ^ shift * (byte.toNat % 128 % 2 ^ (64 - shift)) := by
    have hShift : shift.toUInt64.toNat % 64 = shift := by
      simp
      omega
    rw [UInt64.toNat_shiftLeft, hShift, UInt8.toNat_toUInt64, toNat_and_payloadMask,
      Nat.shiftLeft_eq, Nat.mul_comm, hWidth, Nat.mul_mod_mul_left]
  generalize byte.toNat % 128 = payload at hPart
  -- The bits that are there stand below those of the payload.
  rw [UInt64.toNat_or, hPart, Nat.or_comm, ← Nat.two_pow_add_eq_or_of_lt hBelow]
  have hFits : 2 ^ shift * (payload % 2 ^ (64 - shift)) + word.toNat < 2 ^ 64 := by
    have hKept : payload % 2 ^ (64 - shift) + 1 ≤ 2 ^ (64 - shift) :=
      Nat.mod_lt _ (Nat.two_pow_pos _)
    have hRoom := Nat.mul_le_mul_left (2 ^ shift) hKept
    rw [← hWidth, Nat.mul_succ] at hRoom
    omega
  have hSum : word.toNat + 2 ^ shift * payload =
      2 ^ shift * (payload % 2 ^ (64 - shift)) + word.toNat +
        2 ^ 64 * (payload / 2 ^ (64 - shift)) := by
    conv_lhs => rw [← Nat.mod_add_div payload (2 ^ (64 - shift))]
    rw [hWidth, Nat.mul_add, Nat.mul_assoc]
    omega
  rw [hSum, Nat.add_mul_mod_self_left, Nat.mod_eq_of_lt hFits]

theorem readShifted_eq {word : UInt64} {count : Nat} {bytes : List UInt8}
    (hBelow : word.toNat < 2 ^ (7 * count)) (hRoom : count + bytes.length ≤ maxBytes) :
    readShifted word (7 * count) count bytes =
      some ((word.toNat + 2 ^ (7 * count) * (readGroups bytes.length bytes).1).toUInt64,
        count + (readGroups bytes.length bytes).2) := by
  induction bytes generalizing word count with
  | nil => simp [readShifted, readGroups]
  | cons byte rest ih =>
      rw [List.length_cons] at hRoom
      obtain ⟨part, hPart, hValue⟩ := exists_shiftLeft? byte (by omega) hBelow
      have hPower : 2 ^ (7 * (count + 1)) = 2 ^ (7 * count) * 128 := by
        rw [Nat.mul_succ, Nat.pow_add]
      rw [readShifted, hPart, List.length_cons]
      by_cases hLast : byte &&& continuationBit = 0
      · have hSmall := (and_continuationBit_eq_zero_iff byte).mp hLast
        rw [Nat.mod_eq_of_lt hSmall] at hValue
        have hWord : word ||| part = (word.toNat + 2 ^ (7 * count) * byte.toNat).toUInt64 := by
          apply UInt64.toNat_inj.mp
          rw [hValue, Nat.toUInt64_eq, UInt64.toNat_ofNat']
        simp only [hLast, if_true, readGroups, hSmall, hWord]
      · have hLarge := mt (and_continuationBit_eq_zero_iff byte).mpr hLast
        have hMore : (word ||| part).toNat < 2 ^ (7 * (count + 1)) := by
          rw [hValue, hPower]
          refine (Nat.mod_le _ _).trans_lt ?_
          have hPayload : byte.toNat % 128 + 1 ≤ 128 := Nat.mod_lt _ (by decide)
          have hPlaces := Nat.mul_le_mul_left (2 ^ (7 * count)) hPayload
          rw [Nat.mul_succ] at hPlaces
          omega
        have hRest := ih hMore (by omega)
        rw [Nat.mul_succ] at hRest
        simp only [hLast, if_false, readGroups, hLarge]
        rw [payloadBits, hRest]
        refine congrArg some (Prod.ext ?_ (by omega))
        apply UInt64.toNat_inj.mp
        rw [Nat.toUInt64_eq, Nat.toUInt64_eq, UInt64.toNat_ofNat', UInt64.toNat_ofNat', hValue,
          Nat.mod_add_mod, ← Nat.mul_succ, hPower, Nat.mul_add, Nat.mul_assoc, Nat.add_assoc]

/-- No more bytes are looked at than may be read. -/
theorem readGroups_take (budget : Nat) (bytes : List UInt8) :
    readGroups (bytes.take budget).length (bytes.take budget) = readGroups budget bytes := by
  induction budget generalizing bytes with
  | zero => rfl
  | succ budget ih =>
      cases bytes with
      | nil => rfl
      | cons byte rest => simp only [List.take_succ_cons, List.length_cons, readGroups, ih rest]

/-- Shifting puts together what is read, and never shifts too far. -/
theorem decodeShifted?_eq (bytes : List UInt8) : decodeShifted? bytes = some (decode bytes) := by
  have hRoom : 0 + (bytes.take maxBytes).length ≤ maxBytes := by simp
  have hRead := @readShifted_eq 0 0 (bytes.take maxBytes) (by decide) hRoom
  rw [readGroups_take] at hRead
  simpa [decodeShifted?, decode] using hRead

/-! ## Codes -/

/-- A code is the beginning of no other one. -/
theorem encode_prefix_encode_iff {word other : UInt64} :
    encode word <+: encode other ↔ word = other := by
  constructor
  · rintro ⟨rest, hRest⟩
    have hWord := decode_encode_append word rest
    have hOther := decode_encode_append other []
    rw [hRest] at hWord
    rw [List.append_nil, hWord] at hOther
    exact congrArg Prod.fst hOther
  · rintro rfl
    exact List.prefix_refl _

/-- Codes one behind the other are those of no other words. -/
theorem flatMap_encode_inj {words others : List UInt64} :
    words.flatMap encode = others.flatMap encode ↔ words = others := by
  constructor
  · intro h
    induction words generalizing others with
    | nil =>
        cases others with
        | nil => rfl
        | cons other others =>
            rw [List.flatMap_nil, List.flatMap_cons] at h
            exact absurd (List.append_eq_nil_iff.mp h.symm).1 (groups_ne_nil _)
    | cons word words ih =>
        cases others with
        | nil =>
            rw [List.flatMap_nil, List.flatMap_cons] at h
            exact absurd (List.append_eq_nil_iff.mp h).1 (groups_ne_nil _)
        | cons other others =>
            rw [List.flatMap_cons, List.flatMap_cons] at h
            have hWord := decode_encode_append word (words.flatMap encode)
            rw [h, decode_encode_append] at hWord
            obtain rfl : other = word := congrArg Prod.fst hWord
            rw [ih (List.append_cancel_left h)]
  · rintro rfl
    rfl

/-- The code of a word, as it is written and read. -/
structure Delimits (word : UInt64) (code : List UInt8) : Prop where
  /-- The loop of the writer ends after nine rounds, and has put the code behind what was
  there. -/
  written : ∀ out, writeWithin 9 word out = some (out ++ code)
  /-- The word is read back, whatever comes behind the code. -/
  read : ∀ rest, decode (code ++ rest) = (word, code.length)
  /-- It is put together by shifts, none of which goes as far as the width of a word. -/
  shifted : ∀ rest, decodeShifted? (code ++ rest) = some (word, code.length)
  nonempty : 1 ≤ code.length
  short : code.length ≤ 10
  /-- All bytes but the last one say that the code goes on. -/
  marked : ∃ front last, code = front ++ [last] ∧
    (∀ byte ∈ front, byte &&& continuationBit ≠ 0) ∧ last &&& continuationBit = 0

theorem delimits_encode (word : UInt64) : Delimits word (encode word) where
  written := writeWithin_nine word
  read := decode_encode_append word
  shifted rest := by rw [decodeShifted?_eq, decode_encode_append]
  nonempty := length_encode_pos word
  short := length_encode_le word
  marked := exists_groups_eq word.toNat

/-- Every word has a code that delimits itself, so no code is the beginning of another one,
and codes one behind the other tell the words.  The bits are put together as the reader
does it for all bytes, also for those that are no code. -/
theorem encode_delimits :
    (∀ word, Delimits word (encode word)) ∧
    (∀ word other, encode word <+: encode other ↔ word = other) ∧
    (∀ words others : List UInt64,
      words.flatMap encode = others.flatMap encode ↔ words = others) ∧
    ∀ bytes, decodeShifted? bytes = some (decode bytes) :=
  ⟨delimits_encode, fun _ _ => encode_prefix_encode_iff, fun _ _ => flatMap_encode_inj,
    decodeShifted?_eq⟩

end ForestGraph.Varint
