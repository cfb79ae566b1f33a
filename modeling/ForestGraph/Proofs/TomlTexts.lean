import ForestGraph.Proofs.TomlWords

/-!
# Texts of flat TOML tables

Every line of a flat table is a key and a scalar.  The reader takes both from the line
again, and adds one entry for each line, so it finds the entries of the table in their
order.
-/

namespace ForestGraph

namespace Toml

/-! ## Strings and keys -/

section Keys

variable {key : List Char}

theorem toNat_of_isKeyChar {char : Char} (h : isKeyChar char = true) :
    0x2d ≤ char.toNat ∧ char.toNat ≤ 0x7a := by
  simp only [isKeyChar, Char.isAlphanum, Char.isAlpha, Char.isUpper, Char.isLower, Char.isDigit,
    Bool.or_eq_true, Bool.and_eq_true, decide_eq_true_eq, beq_iff_eq, ge_iff_le,
    UInt32.le_iff_toNat_le] at h
  rcases h with (((hLetter | hLetter) | hDigit) | rfl) | rfl
  · exact ⟨le_trans (by decide) hLetter.1, hLetter.2.trans (by decide)⟩
  · exact ⟨le_trans (by decide) hLetter.1, hLetter.2.trans (by decide)⟩
  · exact ⟨le_trans (by decide) hDigit.1, hDigit.2.trans (by decide)⟩
  · decide
  · decide

theorem isText_of_isKeyChar {char : Char} (h : isKeyChar char = true) : isText char = true := by
  obtain ⟨hLow, hHigh⟩ := toNat_of_isKeyChar h
  have hRange : 0x20 ≤ char.toNat ∧ char.toNat ≠ 0x7f := by omega
  simp [isText, hRange]

theorem escape_of_isKeyChar {char : Char} (h : isKeyChar char = true) :
    Json.Document.escape char = [char] := by
  have hLow := (toNat_of_isKeyChar h).1
  unfold Json.Document.escape
  split
  all_goals first
    | cases h
    | exact if_neg (by omega)

/-- A text of such characters needs no escapes. -/
theorem basic?_append (hKey : key.all isKeyChar = true) (rest : List Char) :
    basic? (key ++ '"' :: rest) = some (key, rest) := by
  induction key with
  | nil => rfl
  | cons char key ih =>
      rw [List.all_cons, Bool.and_eq_true] at hKey
      have hQuote : char ≠ '"' := ne_of_true_of_false hKey.1 rfl
      have hBackslash : char ≠ '\\' := ne_of_true_of_false hKey.1 rfl
      rw [List.cons_append, basic?, if_pos (isText_of_isKeyChar hKey.1), ih hKey.2]
      · rfl
      all_goals simp [hQuote, hBackslash]

theorem toList_quote {text : String} (h : text.toList.all isKeyChar = true) :
    (Json.Document.quote text).toList = '"' :: (text.toList ++ ['"']) := by
  have hEscape : text.toList.flatMap Json.Document.escape = text.toList := by
    rw [List.flatMap_congr fun char hChar =>
      escape_of_isKeyChar (List.all_eq_true.mp h char hChar), List.flatMap_singleton']
  simp [Json.Document.quote, hEscape]

theorem quoted?_append {text : String} (h : text.toList.all isKeyChar = true) (rest : List Char) :
    quoted? ('"' :: (text.toList ++ '"' :: '\n' :: rest)) = some (text, '\n' :: rest) := by
  have hBasic := basic?_append h ('\n' :: rest)
  unfold quoted?
  split
  · -- No string starts with three quotes, also not the empty one.
    rename_i hQuotes
    cases hText : text.toList with
    | nil => simp [hText] at hQuotes
    | cons first more =>
        rw [hText, List.all_cons, Bool.and_eq_true] at h
        have hQuote : first ≠ '"' := ne_of_true_of_false h.1 rfl
        simp_all
  · rename_i hQuotes
    simp at hQuotes
  · simp [quoted?.line?, hBasic]

/-- A string of such characters is written between quotes and read again. -/
theorem writes_string {text : String} (h : text.toList.all isKeyChar = true) :
    Writes (Json.Document.quote text) (.string text) := by
  refine ⟨?_, fun rest => ?_⟩
  · intro first hFirst
    rw [toList_quote h] at hFirst
    obtain rfl : '"' = first := by simpa using hFirst
    decide
  · rw [toList_quote h, List.cons_append, List.append_assoc, List.singleton_append]
    unfold value?
    simp [quoted?_append h]

theorem skipBlanks_eq {text : List Char} (h : ∀ first ∈ text.head?, first ≠ ' ' ∧ first ≠ '\t') :
    skipBlanks text = text := by
  cases text with
  | nil => rfl
  | cons first text =>
      obtain ⟨hBlank, hTab⟩ := h first rfl
      simp [skipBlanks, hBlank, hTab]

theorem head_of_isKeyChar (hSome : key ≠ []) (hKey : key.all isKeyChar = true) (rest : List Char) :
    ∀ first ∈ (key ++ rest).head?, isKeyChar first = true := by
  intro first hFirst
  rw [List.head?_append_of_ne_nil _ hSome] at hFirst
  exact List.all_eq_true.mp hKey first (List.mem_of_mem_head? hFirst)

theorem simpleKey?_append (hSome : key ≠ []) (hKey : key.all isKeyChar = true) (rest : List Char) :
    simpleKey? (key ++ ' ' :: rest) = some (String.ofList key, ' ' :: rest) := by
  have hSpan : (key ++ ' ' :: rest).span isKeyChar = (key, ' ' :: rest) :=
    span_append hKey (by simp [isKeyChar])
  have hNoQuote : quoted?.line? (key ++ ' ' :: rest) = none := by
    have hFirst := head_of_isKeyChar hSome hKey (' ' :: rest)
    unfold quoted?.line?
    split
    · rename_i hText
      rw [hText] at hFirst
      exact absurd (hFirst '"' rfl) (by decide)
    · rename_i hText
      rw [hText] at hFirst
      exact absurd (hFirst '\'' rfl) (by decide)
    · rfl
  rw [simpleKey?, hNoQuote]
  simp only [hSpan]
  rw [if_neg (by simpa using hSome)]

/-- A key ends at the blank behind it. -/
theorem key?_append (hSome : key ≠ []) (hKey : key.all isKeyChar = true) (rest : List Char) :
    key? (key ++ ' ' :: '=' :: rest) = some (([], String.ofList key), '=' :: rest) := by
  have hStart : skipBlanks (key ++ ' ' :: '=' :: rest) = key ++ ' ' :: '=' :: rest :=
    skipBlanks_eq fun first hFirst =>
      have hChar := head_of_isKeyChar hSome hKey _ first hFirst
      ⟨ne_of_true_of_false hChar rfl, ne_of_true_of_false hChar rfl⟩
  have hEnd : skipBlanks (' ' :: '=' :: rest) = '=' :: rest := rfl
  have hKeys : keyUpTo? largestDepth (key ++ ' ' :: '=' :: rest) =
      some ([String.ofList key], '=' :: rest) := by
    rw [show largestDepth = 78 + 1 from rfl, keyUpTo?]
    simp only [hStart, simpleKey?_append hSome hKey, Option.bind_eq_bind, Option.bind_some, hEnd]
    rfl
  rw [key?, hKeys]
  rfl

/-- A line of a table is read as its key and its value. -/
theorem entry?_append {text : String} {value : Toml} (hSome : key ≠ [])
    (hKey : key.all isKeyChar = true) (hWrites : Writes text value) (rest : List Char) :
    entry? (value? largestDepth) (key ++ ' ' :: '=' :: ' ' :: (text.toList ++ '\n' :: rest)) =
      some (([], String.ofList key), value, '\n' :: rest) := by
  have hValue : skipBlanks (' ' :: (text.toList ++ '\n' :: rest)) =
      text.toList ++ '\n' :: rest := by
    have hStarts := hWrites.starts
    change skipBlanks (text.toList ++ '\n' :: rest) = _
    refine skipBlanks_eq ?_
    cases hText : text.toList with
    | nil => simp
    | cons first more => simpa [hText] using hStarts
  simp only [ entry?, key?_append hSome hKey, Option.bind_eq_bind, Option.bind_some, expect?,
    if_true, hValue, hWrites.read]
  rfl

end Keys

/-! ## Lines -/

section Lines

variable {key text : String} {value : Toml} {entries : Entries}

theorem Entries.alter_append {change : Option Toml → Option Toml}
    (hFresh : key ∉ entries.map Prod.fst) (hChange : change none = some value) :
    Entries.alter key change entries = some (entries ++ [(key, value)]) := by
  induction entries with
  | nil => rw [Entries.alter, hChange]; rfl
  | cons entry entries ih =>
      rw [List.map_cons, List.mem_cons, not_or] at hFresh
      rw [Entries.alter, if_neg (Ne.symm hFresh.1), ih hFresh.2]
      rfl

/-- A new key without dots is added behind the other entries. -/
theorem Entries.insert_append (hFresh : key ∉ entries.map Prod.fst) :
    Entries.insert [] key value .header entries = some (entries ++ [(key, value)]) := by
  rw [Entries.insert, Entries.within, Entries.insertHere]
  exact Entries.alter_append hFresh rfl

/-- One line adds one entry. -/
theorem lines?_append (hKey : IsPlainKey key) (hFresh : key ∉ entries.map Prod.fst)
    (hWrites : Writes text value) (count : Nat) (rest : List Char) :
    lines? (count + 1) [] entries
        (key.toList ++ ' ' :: '=' :: ' ' :: (text.toList ++ '\n' :: rest)) =
      lines? count [] (entries ++ [(key, value)]) rest := by
  have hEntry := entry?_append hKey.1 hKey.2 hWrites rest
  have hEnd : endLine? ('\n' :: rest) = some rest := rfl
  have hInsert : Entries.within false [] (fun origin entries => entries.insert [] key value origin)
      .header entries = some (entries ++ [(key, value)]) := by
    rw [Entries.within]
    exact Entries.insert_append hFresh
  obtain ⟨first, more, hText⟩ := List.exists_cons_of_ne_nil hKey.1
  have hFirst : isKeyChar first = true := List.all_eq_true.mp hKey.2 first (by simp [hText])
  rw [hText, List.cons_append] at hEntry ⊢
  have hStart : skipBlanks (first :: (more ++ ' ' :: '=' :: ' ' ::
      (text.toList ++ '\n' :: rest))) = _ := skipBlanks_eq fun char hChar => by
    cases hChar
    exact ⟨ne_of_true_of_false hFirst rfl, ne_of_true_of_false hFirst rfl⟩
  rw [lines?, hStart]
  split
  case h_7 => simp [hEntry, ← hText, hEnd, hInsert]
  case h_1 => contradiction
  all_goals
    rename_i hChars
    obtain ⟨rfl, -⟩ := List.cons.inj hChars
    cases hFirst

end Lines

/-! ## Tables -/

theorem Scalar.writes {scalar : Scalar} {text : String} (h : scalar.IsPlain)
    (hText : scalar.write? = some text) : Writes text scalar.value := by
  cases scalar with
  | string content =>
      cases hText
      exact writes_string h
  | natural number =>
      rw [Scalar.write?] at hText
      split at hText
      · rename_i hLe
        cases hText
        exact writes_natural hLe
      · cases hText
  | real number =>
      cases hText
      exact writes_real h
  | boolean truth =>
      cases hText
      exact writes_boolean truth

variable {table : List (String × Scalar)} {text : String}

theorem writeLines?_cons_eq_some_iff {key : String} {scalar : Scalar} :
    writeLines? ((key, scalar) :: table) = some text ↔
      ∃ word lines, scalar.write? = some word ∧ writeLines? table = some lines ∧
        text = key ++ " = " ++ word ++ "\n" ++ lines := by
  simp only [writeLines?, List.mapM_cons, Option.bind_eq_bind, Option.bind_eq_some_iff,
    Option.pure_def, Option.some.injEq]
  constructor
  · rintro ⟨_, ⟨_, ⟨word, hWord, rfl⟩, lines, hLines, rfl⟩, rfl⟩
    exact ⟨word, _, hWord, ⟨lines, hLines, rfl⟩, String.join_cons⟩
  · rintro ⟨word, _, hWord, ⟨lines, hLines, rfl⟩, rfl⟩
    exact ⟨_, ⟨_, ⟨word, hWord, rfl⟩, lines, hLines, rfl⟩, String.join_cons⟩

theorem toList_line {key word lines : String} :
    (key ++ " = " ++ word ++ "\n" ++ lines).toList =
      key.toList ++ ' ' :: '=' :: ' ' :: (word.toList ++ '\n' :: lines.toList) := by
  simp

/-- The lines of a table add its entries one after the other. -/
theorem lines?_writeLines? {entries : Entries} (h : IsPlainTable table)
    (hFresh : ∀ key ∈ table.map Prod.fst, key ∉ entries.map Prod.fst)
    (hText : writeLines? table = some text) (spare : Nat) :
    lines? (spare + table.length + 1) [] entries text.toList =
      some (entries ++ table.map fun entry => (entry.1, entry.2.value)) := by
  induction table generalizing entries text with
  | nil =>
      cases hText
      simp [lines?, skipBlanks]
  | cons entry table ih =>
      obtain ⟨key, scalar⟩ := entry
      obtain ⟨word, lines, hWord, hLines, rfl⟩ := writeLines?_cons_eq_some_iff.mp hText
      obtain ⟨hKeys, hNodup, hScalars⟩ := h
      rw [List.forall_mem_cons] at hKeys hScalars
      rw [List.map_cons, List.nodup_cons] at hNodup
      rw [List.map_cons, List.forall_mem_cons] at hFresh
      have hLine := lines?_append hKeys.1 hFresh.1 (Scalar.writes hScalars.1 hWord)
      have hLater : ∀ other ∈ table.map Prod.fst,
          other ∉ (entries ++ [(key, scalar.value)]).map Prod.fst := by
        intro other hOther
        rw [List.map_append, List.mem_append, not_or, List.map_singleton, List.mem_singleton]
        refine ⟨hFresh.2 other hOther, ?_⟩
        rintro rfl
        exact hNodup.1 hOther
      have hRest := ih ⟨hKeys.2, hNodup.2, hScalars.2⟩ hLater hLines
      rw [List.length_cons, ← add_assoc, toList_line, hLine, hRest]
      simp

theorem length_le_writeLines? (hText : writeLines? table = some text) :
    table.length ≤ text.toList.length := by
  induction table generalizing text with
  | nil => exact Nat.zero_le _
  | cons entry table ih =>
      obtain ⟨word, lines, _, hLines, rfl⟩ := writeLines?_cons_eq_some_iff.mp hText
      have hLength := ih hLines
      simp only [toList_line, List.length_append, List.length_cons]
      omega

/-- A table is read from its text. -/
theorem parse?_writeLines? (h : IsPlainTable table) (hText : writeLines? table = some text) :
    parse? text = some (table.map fun entry => (entry.1, entry.2.value)) := by
  have hNoMark : ∀ rest, text.toList ≠ '\ufeff' :: rest := by
    cases table with
    | nil =>
        cases hText
        nofun
    | cons entry table =>
        obtain ⟨word, lines, _, _, rfl⟩ := writeLines?_cons_eq_some_iff.mp hText
        obtain ⟨hSome, hKey⟩ := h.keys entry List.mem_cons_self
        intro rest hMark
        rw [toList_line] at hMark
        have hFirst := head_of_isKeyChar hSome hKey
          (' ' :: '=' :: ' ' :: (word.toList ++ '\n' :: lines.toList))
        rw [hMark] at hFirst
        exact absurd (hFirst '\ufeff' rfl) (by decide)
  obtain ⟨spare, hSpare⟩ := Nat.exists_eq_add_of_le' (length_le_writeLines? hText)
  have hFresh : ∀ key ∈ table.map Prod.fst, key ∉ ([] : Entries).map Prod.fst :=
    fun _ _ => List.not_mem_nil
  have hLines := lines?_writeLines? h hFresh hText spare
  rw [← hSpare] at hLines
  unfold parse?
  split
  · rename_i hMark
    exact absurd hMark (hNoMark _)
  · exact hLines

theorem Scalar.exists_write?_iff {scalar : Scalar} :
    (∃ text, scalar.write? = some text) ↔ scalar.Fits := by
  cases scalar with
  | natural number =>
      rw [Scalar.write?, Scalar.Fits]
      split <;> simp_all
  | _ => exact iff_of_true ⟨_, rfl⟩ trivial

/-- A table has a text if its integers fit. -/
theorem exists_writeLines?_iff :
    (∃ text, writeLines? table = some text) ↔ ∀ entry ∈ table, entry.2.Fits := by
  induction table with
  | nil => exact iff_of_true ⟨_, rfl⟩ (List.forall_mem_nil _)
  | cons entry table ih =>
      rw [List.forall_mem_cons, ← ih, ← Scalar.exists_write?_iff]
      constructor
      · rintro ⟨text, hText⟩
        obtain ⟨word, lines, hWord, hLines, -⟩ := writeLines?_cons_eq_some_iff.mp hText
        exact ⟨⟨word, hWord⟩, lines, hLines⟩
      · rintro ⟨⟨word, hWord⟩, lines, hLines⟩
        exact ⟨_, writeLines?_cons_eq_some_iff.mpr ⟨word, lines, hWord, hLines, rfl⟩⟩

theorem find?_map_value (table : List (String × Scalar)) (key : String) :
    Entries.find? (table.map fun entry => (entry.1, entry.2.value)) key =
      (table.lookup key).map Scalar.value := by
  induction table with
  | nil => rfl
  | cons entry table ih =>
      rw [Entries.find?] at ih ⊢
      rw [List.map_cons, List.lookup_cons, List.lookup_cons, ih]
      split <;> rfl

/-- What the codec of this library prints is read back. -/
theorem Codec.faithful_standard : Codec.standard.Faithful where
  writes_iff _ _ := exists_writeLines?_iff
  reads_back table _ hPlain hText := ⟨_, parse?_writeLines? hPlain hText, find?_map_value table⟩

end Toml

end ForestGraph
