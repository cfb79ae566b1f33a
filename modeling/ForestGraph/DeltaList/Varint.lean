/-!
# Variable-length codes of 64-bit words

A word is written in groups of seven bits, the least significant group first.
Every byte but the last of a code has its high bit set, so a reader knows where
a code ends without being told its length.
-/

namespace ForestGraph.Varint

/-- The bits of a word that one byte carries. -/
def payloadBits : Nat := 7

/-- The part of a byte that carries bits of the word. -/
def payloadMask : UInt8 := 0x7f

/-- The bit that says that the code goes on. -/
def continuationBit : UInt8 := 0x80

/-- The length of the longest code. -/
def maxBytes : Nat := 10

/-- The code of a natural number: its digits in base 128, the last one first,
with the continuation bit on all but the last byte. -/
def groups (number : Nat) : List UInt8 :=
  if number < 128 then [number.toUInt8]
  else (number % 128 + 128).toUInt8 :: groups (number / 128)
termination_by number
decreasing_by omega

/-- The code of a word. -/
def encode (word : UInt64) : List UInt8 :=
  groups word.toNat

/-- The number at the front of `bytes` and the length of its code.  At most
`budget` bytes are read; a code that is cut off counts as far as it goes. -/
def readGroups : Nat → List UInt8 → Nat × Nat
  | 0, _ => (0, 0)
  | _ + 1, [] => (0, 0)
  | budget + 1, byte :: rest =>
      if byte.toNat < 128 then (byte.toNat, 1)
      else
        let (number, length) := readGroups budget rest
        (byte.toNat % 128 + 128 * number, length + 1)

/-- The word at the front of `bytes` and the length of its code. -/
def decode (bytes : List UInt8) : UInt64 × Nat :=
  let (number, length) := readGroups maxBytes bytes
  (number.toUInt64, length)

theorem groups_of_lt {number : Nat} (h : number < 128) :
    groups number = [number.toUInt8] := by
  rw [groups, if_pos h]

theorem groups_of_le {number : Nat} (h : 128 ≤ number) :
    groups number = (number % 128 + 128).toUInt8 :: groups (number / 128) := by
  rw [groups, if_neg (Nat.not_lt.mpr h)]

/-- A code is never empty. -/
theorem groups_ne_nil (number : Nat) : groups number ≠ [] := by
  rw [groups]
  split <;> simp

/-- What is written is read back, whatever comes behind it. -/
theorem readGroups_groups (number budget : Nat) (rest : List UInt8)
    (h : (groups number).length ≤ budget) :
    readGroups budget (groups number ++ rest) = (number, (groups number).length) := by
  induction number using Nat.strongRecOn generalizing budget with
  | ind number ih =>
      cases budget with
      | zero =>
          have hNil := List.length_eq_zero_iff.mp (Nat.le_zero.mp h)
          exact absurd hNil (groups_ne_nil number)
      | succ budget =>
          by_cases hSmall : number < 128
          · have hByte : number.toUInt8.toNat = number := by
              simp; omega
            simp [groups_of_lt hSmall, readGroups, hByte, hSmall]
          · have hLarge : 128 ≤ number := Nat.not_lt.mp hSmall
            have hByte : (number % 128 + 128).toUInt8.toNat = number % 128 + 128 := by
              simp; omega
            rw [groups_of_le hLarge] at h ⊢
            have hRest := ih (number / 128) (by omega) budget (by simpa using h)
            simp only [List.cons_append, readGroups, hByte, hRest, List.length_cons]
            rw [if_neg (by omega)]
            simp only [Prod.mk.injEq, and_true]
            omega

/-- A code has one byte for every group of seven bits. -/
theorem length_groups_le {number count : Nat} (h : number < Nat.pow 128 (count + 1)) :
    (groups number).length ≤ count + 1 := by
  induction count generalizing number with
  | zero =>
      have h : number < 128 := by simpa using h
      simp [groups_of_lt h]
  | succ count ih =>
      by_cases hSmall : number < 128
      · simp [groups_of_lt hSmall]
      · have hQuotient : number / 128 < Nat.pow 128 (count + 1) := by
          apply Nat.div_lt_of_lt_mul
          rw [Nat.mul_comm]
          exact h
        rw [groups_of_le (Nat.not_lt.mp hSmall), List.length_cons]
        have := ih hQuotient
        omega

/-- No code of a word is longer than `maxBytes`. -/
theorem length_encode_le (word : UInt64) : (encode word).length ≤ maxBytes := by
  apply length_groups_le
  have hWord := word.toNat_lt
  exact Nat.lt_of_lt_of_le hWord (by decide)

/-- Decoding undoes encoding, whatever comes behind the code. -/
theorem decode_encode_append (word : UInt64) (rest : List UInt8) :
    decode (encode word ++ rest) = (word, (encode word).length) := by
  have hLength := length_encode_le word
  simp only [encode] at hLength
  simp [decode, encode, readGroups_groups _ _ _ hLength]

end ForestGraph.Varint
