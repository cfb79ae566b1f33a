import ForestGraph.Proofs.NumberTexts

/-!
# Texts of JSON documents

The text of a plain document is cut into the tokens of the value that it stands for, and
this value is put together from them again.
-/

namespace ForestGraph

/-! ## Tokens -/

namespace JsonToken

variable {text more : List Char} {tokens others : List JsonToken} {Follows : List Char → Prop}

/-- A text is cut into tokens, whatever stands behind it of the kind that may. -/
structure Lexes (Follows : List Char → Prop) (text : List Char) (tokens : List JsonToken) :
    Prop where
  length_le : tokens.length ≤ text.length
  readUpTo_append : ∀ {rest count found}, Follows rest → readUpTo count rest = some found →
    readUpTo (count + tokens.length) (text ++ rest) = some (tokens ++ found)

/-- The text may be followed by anything. -/
def Anything (_ : List Char) : Prop :=
  True

theorem lexes_nil : Lexes Anything [] [] where
  length_le := le_rfl
  readUpTo_append _ h := h

theorem Lexes.mono {Other : List Char → Prop} (h : Lexes Follows text tokens)
    (hFollows : ∀ rest, Other rest → Follows rest) : Lexes Other text tokens :=
  ⟨h.length_le, fun hRest => h.readUpTo_append (hFollows _ hRest)⟩

theorem Lexes.append {Other : List Char → Prop} (h : Lexes Follows text tokens)
    (hMore : Lexes Other more others) (hFollows : ∀ rest, Other rest → Follows (more ++ rest)) :
    Lexes Other (text ++ more) (tokens ++ others) where
  length_le := by
    rw [List.length_append, List.length_append]
    exact Nat.add_le_add h.length_le hMore.length_le
  readUpTo_append {rest count found} hRest hFound := by
    -- The count is used up from the end of the text to its beginning.
    have hLast := h.readUpTo_append (hFollows rest hRest) (hMore.readUpTo_append hRest hFound)
    rw [List.length_append, List.append_assoc, List.append_assoc, add_comm tokens.length,
      ← add_assoc]
    exact hLast

/-- Behind what may be followed by anything, anything may stand. -/
theorem Lexes.append_anything {Other : List Char → Prop} (h : Lexes Anything text tokens)
    (hMore : Lexes Other more others) : Lexes Other (text ++ more) (tokens ++ others) :=
  h.append hMore fun _ _ => trivial

/-- A blank is no token. -/
theorem lexes_blank {char : Char} (h : isBlank char = true) : Lexes Anything [char] [] where
  length_le := Nat.zero_le _
  readUpTo_append {rest count found} _ hFound := by
    cases count with
    | zero => cases hFound
    | succ count => simpa [readUpTo, h] using hFound

theorem lexes_blanks {text : List Char} (h : ∀ char ∈ text, isBlank char = true) :
    Lexes Anything text [] := by
  induction text with
  | nil => exact lexes_nil
  | cons char text ih =>
      rw [List.forall_mem_cons] at h
      exact (lexes_blank h.1).append_anything (ih h.2)

/-- A text that starts with no blank and is read as a token. -/
theorem lexes_token {first : Char} {token : JsonToken} (hFirst : isBlank first = false)
    (h : ∀ rest, Follows rest → read? (first :: text ++ rest) = some (token, rest)) :
    Lexes Follows (first :: text) [token] where
  length_le := by simp
  readUpTo_append {rest count found} hRest hFound := by
    have hRead := h rest hRest
    rw [List.cons_append] at hRead ⊢
    simp [readUpTo, hFirst, hRead, hFound]

theorem Word.lexes {word : String} {token : JsonToken} (h : Word word token) :
    Lexes EndsWord word.toList [token] := by
  obtain ⟨first, text, hText, hFirst⟩ := h.starts
  have hRead := h.read
  rw [hText] at hRead ⊢
  exact lexes_token hFirst hRead

/-- A text is read as the tokens into which it is cut. -/
theorem Lexes.readAll? (h : Lexes EndsWord text tokens) :
    JsonToken.readAll? text = some tokens := by
  have hEnd : readUpTo (text.length + 1 - tokens.length) [] = some [] := by
    have hCount : text.length + 1 - tokens.length = text.length - tokens.length + 1 :=
      Nat.succ_sub h.length_le
    rw [hCount]
    rfl
  have hNothing : EndsWord [] := by
    intro first hFirst
    cases hFirst
  have hRead := h.readUpTo_append hNothing hEnd
  have hCount : text.length + 1 - tokens.length + tokens.length = text.length + 1 :=
    Nat.sub_add_cancel (h.length_le.trans (Nat.le_succ _))
  rwa [hCount, List.append_nil, List.append_nil] at hRead

/-! ## Strings -/

theorem hexValue?_hexDigit : ∀ unit < 0x20, hexValue? ['0', '0', Json.Document.hexDigit (unit / 16),
    Json.Document.hexDigit (unit % 16)] = some unit := by
  decide

theorem pieces?_letter {letter char : Char} (hLetter : letter ≠ 'u')
    (h : escaped? letter = some char) (rest : List Char) :
    pieces? ('\\' :: letter :: rest) =
      (pieces? rest).map (fun found => (.char char :: found.1, found.2)) := by
  rw [pieces?]
  · rw [h]
    cases pieces? rest <;> rfl
  · simp [hLetter]

/-- An escaped character is read as one piece that spells it. -/
theorem pieces?_escape (char : Char) (rest : List Char) :
    ∃ piece, pieces? (Json.Document.escape char ++ rest) =
        (pieces? rest).map (fun found => (piece :: found.1, found.2)) ∧
      ∀ pieces, spell? (piece :: pieces) = (spell? pieces).map (char :: ·) := by
  unfold Json.Document.escape
  split
  case h_8 hQuote hBackslash hBack hFeed hLine hReturn hTab =>
    by_cases hControl : char.toNat < 0x20
    · refine ⟨.unit char.toNat, ?_, ?_⟩
      · rw [if_pos hControl]
        simp only [List.cons_append, List.nil_append, pieces?, hexValue?_hexDigit _ hControl]
        cases pieces? rest <;> rfl
      · intro pieces
        have hLow : char.toNat < 0xd800 ∨ 0xe000 ≤ char.toNat := .inl (by omega)
        rw [spell?.eq_def]
        simp only [hLow, if_true, Char.ofNat_toNat]
    · refine ⟨.char char, ?_, fun _ => rfl⟩
      rw [if_neg hControl, List.singleton_append, pieces?]
      · rw [if_neg hControl]
        cases pieces? rest <;> rfl
      all_goals simp_all
  all_goals exact ⟨.char _, pieces?_letter (by decide) rfl rest, fun _ => rfl⟩

/-- A quoted text is read as the text. -/
theorem pieces?_flatMap_escape (text rest : List Char) :
    ∃ pieces, pieces? (text.flatMap Json.Document.escape ++ '"' :: rest) = some (pieces, rest) ∧
      spell? pieces = some text := by
  induction text with
  | nil => exact ⟨[], by simp [pieces?], rfl⟩
  | cons char text ih =>
      obtain ⟨pieces, hPieces, hSpell⟩ := ih
      obtain ⟨piece, hPiece, hChar⟩ :=
        pieces?_escape char (text.flatMap Json.Document.escape ++ '"' :: rest)
      refine ⟨piece :: pieces, ?_, ?_⟩
      · rw [List.flatMap_cons, List.append_assoc, hPiece, hPieces]
        rfl
      · rw [hChar, hSpell]
        rfl

theorem lexes_quote (text : String) :
    Lexes Anything (Json.Document.quote text).toList [.string (some text)] := by
  have hText : (Json.Document.quote text).toList =
      '"' :: (text.toList.flatMap Json.Document.escape ++ ['"']) := by
    simp [Json.Document.quote]
  rw [hText]
  refine lexes_token rfl fun rest _ => ?_
  obtain ⟨pieces, hPieces, hSpell⟩ := pieces?_flatMap_escape text.toList rest
  simp [read?, hPieces, hSpell]

/-- Lists of tokens with commas between them. -/
def separated : List (List JsonToken) → List JsonToken
  | [] => []
  | first :: rest => first ++ rest.flatMap (comma :: ·)

end JsonToken

/-! ## Values -/

namespace Json

open JsonToken

/-- The tokens that write a value. -/
def tokens : Json → List JsonToken
  | null => [.null]
  | bool truth => [.bool truth]
  | number literal => [.number literal]
  | string text => [.string text]
  | array items => .openArray :: separated (itemTokens items) ++ [.closeArray]
  | object fields => .openObject :: separated (fieldTokens fields) ++ [.closeObject]
where
  /-- The tokens of each item. -/
  itemTokens : List Json → List (List JsonToken)
    | [] => []
    | item :: items => item.tokens :: itemTokens items
  /-- The tokens of each field. -/
  fieldTokens : List (Option String × Json) → List (List JsonToken)
    | [] => []
    | (name, value) :: fields => (.string name :: .colon :: value.tokens) :: fieldTokens fields

/-- The tokens of a value do not start with a closing bracket. -/
theorem tokens_eq_cons (value : Json) : ∃ first rest, value.tokens = first :: rest ∧
    first ≠ .closeArray ∧ first ≠ .closeObject := by
  cases value <;> exact ⟨_, _, rfl, by simp⟩

mutual

/-- A value is put together from its tokens. -/
theorem readValue?_tokens (value : Json) (stack : List Frame) (rest : List JsonToken) :
    readValue? stack (value.tokens ++ rest) = readAfter? value stack rest := by
  match value with
  | null => rw [tokens, List.singleton_append, readValue?]
  | bool truth => rw [tokens, List.singleton_append, readValue?]
  | number literal => rw [tokens, List.singleton_append, readValue?]
  | string text => rw [tokens, List.singleton_append, readValue?]
  | array [] => simp [tokens, tokens.itemTokens, separated, readValue?]
  | array (item :: items) =>
      -- No item starts like the end of an array, so the array is not taken for an empty one.
      obtain ⟨first, more, hFirst, hOpen, _⟩ := item.tokens_eq_cons
      have hItem := readValue?_tokens item (.array [] :: stack)
        ((tokens.itemTokens items).flatMap (.comma :: ·) ++ .closeArray :: rest)
      have hItems := readAfter?_items items item [] stack rest
      rw [hFirst, List.cons_append] at hItem
      simp only [tokens, tokens.itemTokens, separated, hFirst, List.cons_append, List.append_assoc,
        List.nil_append]
      rw [readValue?]
      · rw [hItem, hItems]
        rfl
      · simp [hOpen]
  | object [] => simp [tokens, tokens.fieldTokens, separated, readValue?]
  | object ((name, value) :: fields) =>
      have hValue := readValue?_tokens value (.object [] name :: stack)
        ((tokens.fieldTokens fields).flatMap (.comma :: ·) ++ .closeObject :: rest)
      have hFields := readAfter?_fields fields name value [] stack rest
      simp only [tokens, tokens.fieldTokens, separated, List.cons_append, List.append_assoc,
        List.nil_append]
      rw [readValue?, hValue, hFields]
      rfl

/-- The items behind a first one. -/
theorem readAfter?_items (items : List Json) (item : Json) (done : List Json)
    (stack : List Frame) (rest : List JsonToken) :
    readAfter? item (.array done :: stack)
        ((tokens.itemTokens items).flatMap (.comma :: ·) ++ .closeArray :: rest) =
      readAfter? (array (done.reverse ++ item :: items)) stack rest := by
  match items with
  | [] => simp [tokens.itemTokens, readAfter?]
  | next :: items =>
      have hItem := readValue?_tokens next (.array (item :: done) :: stack)
        ((tokens.itemTokens items).flatMap (.comma :: ·) ++ .closeArray :: rest)
      have hItems := readAfter?_items items next (item :: done) stack rest
      simp only [tokens.itemTokens, List.flatMap_cons, List.cons_append, List.append_assoc]
      rw [readAfter?, hItem, hItems]
      simp

/-- The fields behind a first one. -/
theorem readAfter?_fields (fields : List (Option String × Json)) (name : Option String)
    (value : Json) (done : List (Option String × Json)) (stack : List Frame)
    (rest : List JsonToken) :
    readAfter? value (.object done name :: stack)
        ((tokens.fieldTokens fields).flatMap (.comma :: ·) ++ .closeObject :: rest) =
      readAfter? (object (done.reverse ++ (name, value) :: fields)) stack rest := by
  match fields with
  | [] => simp [tokens.fieldTokens, readAfter?]
  | (next, other) :: fields =>
      have hValue := readValue?_tokens other (.object ((name, value) :: done) next :: stack)
        ((tokens.fieldTokens fields).flatMap (.comma :: ·) ++ .closeObject :: rest)
      have hFields := readAfter?_fields fields next other ((name, value) :: done) stack rest
      simp only [tokens.fieldTokens, List.flatMap_cons, List.cons_append, List.append_assoc]
      rw [readAfter?, hValue, hFields]
      simp

end

/-- A text that is cut into the tokens of a value denotes this value. -/
theorem parse?_of_lexes {text : String} {value : Json}
    (h : Lexes EndsWord text.toList value.tokens) : parse? text = some value := by
  have hValue := readValue?_tokens value [] []
  rw [List.append_nil] at hValue
  simp only [parse?, h.readAll?, Option.bind_eq_bind, Option.bind_some, hValue]
  rw [readAfter?]

/-! ## Documents -/

namespace Document

section Block

variable {lead ending : List Char} {lines : List String} {tokens : List (List JsonToken)}
  {others : List JsonToken}

theorem intercalate_cons (separator line : List Char) (lines : List (List Char)) :
    separator.intercalate (line :: lines) = line ++ lines.flatMap (separator ++ ·) := by
  induction lines generalizing line with
  | nil => simp
  | cons next lines ih =>
      rw [List.intercalate_cons_cons, ih, List.flatMap_cons, List.append_assoc, List.append_assoc]

/-- A line ends where the next one is separated from it or the block is closed. -/
theorem endsWord_lines (lines : List String) (rest : List Char) :
    EndsWord
      (lines.flatMap (fun line => ',' :: lead ++ line.toList) ++ '\n' :: ending ++ rest) := by
  intro first hFirst
  cases lines with
  | nil => exact .inr (Option.some.inj hFirst).symm
  | cons line lines => exact .inl (Option.some.inj hFirst).symm

theorem lexes_lines (hLead : ∀ char ∈ lead, isBlank char = true)
    (hLines : List.Forall₂ (fun line tokens => Lexes EndsWord line.toList tokens) lines tokens)
    (hEnding : Lexes Anything ('\n' :: ending) others) :
    Lexes Anything (lines.flatMap (fun line => ',' :: lead ++ line.toList) ++ '\n' :: ending)
      (tokens.flatMap (.comma :: ·) ++ others) := by
  induction hLines with
  | nil => exact hEnding
  | @cons line first lines tokens hLine _ ih =>
      have hComma : Lexes Anything [','] [.comma] := lexes_token rfl fun _ _ => rfl
      -- The line may end in a word, which the next comma or line break ends.
      have hRest := hLine.append ih fun rest _ => endsWord_lines lines rest
      have hAll := hComma.append_anything ((lexes_blanks hLead).append_anything hRest)
      simpa using hAll

theorem lexes_block {opening closing : String} {first last : JsonToken} (level : Nat)
    (hOpening : Lexes Anything opening.toList [first])
    (hClosing : Lexes Anything closing.toList [last])
    (hLines : List.Forall₂ (fun line tokens => Lexes EndsWord line.toList tokens) lines tokens) :
    Lexes Anything (block opening closing level lines).toList
      (first :: separated tokens ++ [last]) := by
  have hBlanks (level : Nat) :
      ∀ char ∈ '\n' :: (indentation level).toList, isBlank char = true := by
    simp [indentation, isBlank]
  cases hLines with
  | nil =>
      rw [block, String.toList_append]
      exact hOpening.append_anything hClosing
  | @cons line found lines tokens hLine hLines =>
      have hEnding := (lexes_blanks (hBlanks level)).append_anything hClosing
      have hRest := lexes_lines (hBlanks (level + 1)) hLines hEnding
      have hText := hLine.append hRest fun rest _ => endsWord_lines lines rest
      have hLines := (lexes_blanks (hBlanks (level + 1))).append_anything hText
      have hAll := hOpening.append_anything hLines
      simpa [block, intercalate_cons, separated, List.flatMap_map] using hAll

end Block

mutual

/-- The text of a document is cut into the tokens of its value. -/
theorem IsPlain.lexes_prettyAt {depth : Nat} {document : Document} (h : document.IsPlain depth)
    (level : Nat) : Lexes EndsWord (document.prettyAt level).toList document.value.tokens := by
  match document, h with
  | null, _ => exact word_null.lexes
  | bool truth, _ => exact (word_bool truth).lexes
  | index word, .index hWord => exact (word_toString hWord).lexes
  | real size, .real hFinite => exact (word_write hFinite).lexes
  | string text, _ => exact (lexes_quote text).mono fun _ _ => trivial
  | array items, .array hItems =>
      have hOpening : Lexes Anything "[".toList [.openArray] :=
        show Lexes Anything ['['] _ from lexes_token rfl fun _ _ => rfl
      have hClosing : Lexes Anything "]".toList [.closeArray] :=
        show Lexes Anything [']'] _ from lexes_token rfl fun _ _ => rfl
      have hBlock := lexes_block level hOpening hClosing (lexes_items items hItems (level + 1))
      exact hBlock.mono fun _ _ => trivial
  | object fields, .object _ hFields =>
      have hOpening : Lexes Anything "\x7b".toList [.openObject] :=
        show Lexes Anything ['\x7b'] _ from lexes_token rfl fun _ _ => rfl
      have hClosing : Lexes Anything "\x7d".toList [.closeObject] :=
        show Lexes Anything ['\x7d'] _ from lexes_token rfl fun _ _ => rfl
      have hBlock := lexes_block level hOpening hClosing (lexes_fields fields hFields (level + 1))
      exact hBlock.mono fun _ _ => trivial

theorem lexes_items {depth : Nat} (items : List Document)
    (h : ∀ item ∈ items, item.IsPlain depth) (level : Nat) :
    List.Forall₂ (fun line tokens => Lexes EndsWord line.toList tokens)
      (prettyAt.prettyItems level items) (tokens.itemTokens (value.itemValues items)) := by
  match items with
  | [] => exact .nil
  | item :: items =>
      rw [List.forall_mem_cons] at h
      exact .cons (h.1.lexes_prettyAt level) (lexes_items items h.2 level)

theorem lexes_fields {depth : Nat} (fields : List (String × Document))
    (h : ∀ field ∈ fields, field.2.IsPlain depth) (level : Nat) :
    List.Forall₂ (fun line tokens => Lexes EndsWord line.toList tokens)
      (prettyAt.prettyFields level fields) (tokens.fieldTokens (value.fieldValues fields)) := by
  match fields with
  | [] => exact .nil
  | (name, document) :: fields =>
      rw [List.forall_mem_cons] at h
      refine .cons ?_ (lexes_fields fields h.2 level)
      have hColon : Lexes Anything [':'] [.colon] := lexes_token rfl fun _ _ => rfl
      have hBlank : Lexes Anything [' '] [] := lexes_blank rfl
      have hAll := (lexes_quote name).append_anything (hColon.append_anything
        (hBlank.append_anything (h.1.lexes_prettyAt level)))
      simpa using hAll

end

/-- A document is read as its value. -/
theorem IsPlain.parse?_pretty {depth : Nat} {document : Document} (h : document.IsPlain depth) :
    parse? document.pretty = some document.value :=
  parse?_of_lexes (h.lexes_prettyAt 0)

end Document

end Json

end ForestGraph
