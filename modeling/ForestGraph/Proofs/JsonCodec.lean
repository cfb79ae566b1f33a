import ForestGraph.Proofs.JsonTexts

/-!
# The JSON codec of this library

The codec is faithful.  Plain documents are read back by the lemmas on their texts.  What
is no finite number has the text of `null`, and the reader gives no place in a value to an
infinity, because no token holds one.
-/

namespace ForestGraph

/-! ## Finite tokens -/

namespace JsonToken

variable {text rest : List Char} {token : JsonToken} {tokens : List JsonToken}

/-- A token that is no number, or one that is read as a finite number if at all. -/
def IsFinite : JsonToken → Prop
  | number literal => ∀ number ∈ literal.real?, number.isFinite = true
  | _ => True

theorem isFinite_of_toFinite? {decimal : Decimal} {number : Float}
    (h : decimal.toFinite? = some number) : number.isFinite = true := by
  simp only [Decimal.toFinite?] at h
  split at h
  · rename_i hFinite
    cases h
    exact hFinite
  · cases h

/-- Decimals that round to infinity are told from numbers. -/
theorem isFinite_ofDecimal (integral : Bool) (decimal : Decimal) :
    (number (.ofDecimal integral decimal)).IsFinite := by
  intro number hNumber
  unfold JsonNumber.ofDecimal at hNumber
  split at hNumber
  · exact isFinite_of_toFinite? hNumber
  · split at hNumber
    · rename_i hFinite
      cases hNumber
      exact isFinite_of_toFinite? hFinite
    · cases hNumber

theorem isFinite_of_number? {literal : JsonNumber} (h : number? text = some (literal, rest)) :
    (number literal).IsFinite := by
  simp only [number?, Option.bind_eq_bind, Option.bind_eq_some_iff, Option.pure_def,
    Option.some.injEq, Prod.mk.injEq] at h
  obtain ⟨_, _, _, _, _, _, rfl, _⟩ := h
  exact isFinite_ofDecimal _ _

theorem isFinite_of_read? (h : read? text = some (token, rest)) : token.IsFinite := by
  unfold read? at h
  split at h
  case h_10 =>
      simp only [Option.bind_eq_bind, Option.bind_eq_some_iff, Option.pure_def, Option.some.injEq,
        Prod.mk.injEq] at h
      obtain ⟨_, _, rfl, _⟩ := h
      trivial
  case h_11 =>
      simp only [Option.bind_eq_bind, Option.bind_eq_some_iff, Option.pure_def, Option.some.injEq,
        Prod.mk.injEq] at h
      obtain ⟨⟨literal, _⟩, hNumber, rfl, _⟩ := h
      exact isFinite_of_number? hNumber
  all_goals
    cases h
    trivial

theorem isFinite_of_readUpTo {count : Nat} (h : readUpTo count text = some tokens) :
    ∀ token ∈ tokens, token.IsFinite := by
  induction count generalizing text tokens with
  | zero => cases h
  | succ count ih =>
      rw [readUpTo] at h
      split at h
      · cases h
        exact List.forall_mem_nil _
      · simp only [Option.bind_eq_bind, Option.bind_eq_some_iff, Option.pure_def,
          Option.some.injEq] at h
        obtain ⟨⟨token, rest⟩, hRead, later, hLater, rfl⟩ := h
        exact List.forall_mem_cons.mpr ⟨isFinite_of_read? hRead, ih hLater⟩

end JsonToken

namespace Json

/-! ## Finite values -/

/-- What an open array or object holds is finite. -/
def Frame.IsFinite : Frame → Prop
  | array items => ∀ item ∈ items, item.IsFinite
  | object fields _ => ∀ field ∈ fields, field.2.IsFinite

namespace Frame.IsFinite

variable {item : Json} {items : List Json} {fields : List (Option String × Json)}
  {name : Option String}

theorem push (h : IsFinite (.array items)) (hItem : item.IsFinite) :
    IsFinite (.array (item :: items)) :=
  List.forall_mem_cons.mpr ⟨hItem, h⟩

theorem pushField (h : IsFinite (.object fields name)) (hItem : item.IsFinite)
    (next : Option String) :
    IsFinite (.object ((name, item) :: fields) next) :=
  List.forall_mem_cons.mpr ⟨hItem, h⟩

theorem close (h : IsFinite (.array items)) : (Json.array items.reverse).IsFinite :=
  .array fun item hItem => h item (List.mem_reverse.mp hItem)

theorem closeFields (h : IsFinite (.object fields name)) :
    (Json.object fields.reverse).IsFinite :=
  .object fun field hField => h field (List.mem_reverse.mp hField)

end Frame.IsFinite

mutual

/-- Values that are put together from finite tokens are finite. -/
theorem isFinite_of_readValue? {stack : List Frame} {tokens : List JsonToken} {value : Json}
    (hStack : ∀ frame ∈ stack, frame.IsFinite) (hTokens : ∀ token ∈ tokens, token.IsFinite)
    (h : readValue? stack tokens = some value) : value.IsFinite := by
  unfold readValue? at h
  split at h
  case h_9 => cases h
  all_goals simp only [List.forall_mem_cons] at hTokens
  · exact isFinite_of_readAfter? .null hStack hTokens.2 h
  · exact isFinite_of_readAfter? (.bool _) hStack hTokens.2 h
  · exact isFinite_of_readAfter? (.number hTokens.1) hStack hTokens.2 h
  · exact isFinite_of_readAfter? (.string _) hStack hTokens.2 h
  · exact isFinite_of_readAfter? (.array (List.forall_mem_nil _)) hStack hTokens.2.2 h
  · have hOpened : Frame.IsFinite (.array []) := List.forall_mem_nil _
    exact isFinite_of_readValue? (List.forall_mem_cons.mpr ⟨hOpened, hStack⟩) hTokens.2 h
  · exact isFinite_of_readAfter? (.object (List.forall_mem_nil _)) hStack hTokens.2.2 h
  · rename_i name rest
    have hOpened : Frame.IsFinite (.object [] name) := List.forall_mem_nil _
    exact isFinite_of_readValue? (List.forall_mem_cons.mpr ⟨hOpened, hStack⟩) hTokens.2.2.2 h
termination_by tokens.length

theorem isFinite_of_readAfter? {item value : Json} {stack : List Frame} {tokens : List JsonToken}
    (hItem : item.IsFinite) (hStack : ∀ frame ∈ stack, frame.IsFinite)
    (hTokens : ∀ token ∈ tokens, token.IsFinite)
    (h : readAfter? item stack tokens = some value) : value.IsFinite := by
  unfold readAfter? at h
  split at h
  case h_1 =>
      cases h
      exact hItem
  case h_6 => cases h
  all_goals simp only [List.forall_mem_cons] at hTokens hStack
  · have hItems := hStack.1.push hItem
    exact isFinite_of_readValue? (List.forall_mem_cons.mpr ⟨hItems, hStack.2⟩) hTokens.2 h
  · exact isFinite_of_readAfter? (hStack.1.push hItem).close hStack.2 hTokens.2 h
  · have hFields (next : Option String) := hStack.1.pushField hItem next
    exact isFinite_of_readValue? (List.forall_mem_cons.mpr ⟨hFields _, hStack.2⟩) hTokens.2.2.2 h
  · exact isFinite_of_readAfter? (hStack.1.pushField hItem none).closeFields hStack.2 hTokens.2 h
termination_by tokens.length

end

theorem isFinite_of_parse? {text : String} {value : Json} (h : parse? text = some value) :
    value.IsFinite := by
  obtain ⟨tokens, hTokens, hValue⟩ := Option.bind_eq_some_iff.mp h
  have hStack : ∀ frame ∈ ([] : List Frame), frame.IsFinite := List.forall_mem_nil _
  exact isFinite_of_readValue? hStack (JsonToken.isFinite_of_readUpTo hTokens) hValue

/-! ## Nulls -/

namespace Document

mutual

theorem prettyAt_withNulls (document : Document) (level : Nat) :
    document.withNulls.prettyAt level = document.prettyAt level := by
  match document with
  | null => rfl
  | bool truth => rfl
  | index word => rfl
  | string text => rfl
  | real size =>
      cases hFinite : size.isFinite with
      | true => simp [withNulls, hFinite]
      | false => simp [withNulls, hFinite, prettyAt, compact, JsonToken.write_eq_null]
  | array items => rw [withNulls, prettyAt, prettyAt, prettyItems_withNulls items]
  | object fields => rw [withNulls, prettyAt, prettyAt, prettyFields_withNulls fields]

theorem prettyItems_withNulls (items : List Document) (level : Nat) :
    prettyAt.prettyItems level (withNulls.itemsWithNulls items) =
      prettyAt.prettyItems level items := by
  match items with
  | [] => rfl
  | item :: items =>
      rw [withNulls.itemsWithNulls, prettyAt.prettyItems, prettyAt.prettyItems,
        prettyAt_withNulls item, prettyItems_withNulls items]

theorem prettyFields_withNulls (fields : List (String × Document)) (level : Nat) :
    prettyAt.prettyFields level (withNulls.fieldsWithNulls fields) =
      prettyAt.prettyFields level fields := by
  match fields with
  | [] => rfl
  | (name, document) :: fields =>
      rw [withNulls.fieldsWithNulls, prettyAt.prettyFields, prettyAt.prettyFields,
        prettyAt_withNulls document, prettyFields_withNulls fields]

end

end Document

/-- What the codec of this library prints is read back, and no infinity is read. -/
theorem Codec.faithful_standard : Codec.standard.Faithful where
  reads_back document hPlain := ⟨document.pretty, rfl, hPlain.parse?_pretty⟩
  writes_null document := congrArg some (document.prettyAt_withNulls 0).symm
  refuses_infinity _ _ := isFinite_of_parse?

end Json

end ForestGraph
