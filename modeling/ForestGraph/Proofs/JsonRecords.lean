import ForestGraph.Json.Codec
import Mathlib.Data.List.Basic

/-!
# Records in JSON documents

A document describes an item if reading what is printed gives the item back, provided that
the numbers in the item are finite, and gives nothing otherwise.  What is put together from
such documents as a list or as a record describes what is put together from the items.
-/

namespace ForestGraph.Json

/-! ## Lists -/

section Lists

variable {α : Type} {read : Json → Option α}

theorem mapM_eq_some_map {α β : Type} {items : List α} {f : α → Option β} {g : α → β}
    (h : ∀ item ∈ items, f item = some (g item)) : items.mapM f = some (items.map g) := by
  induction items with
  | nil => rfl
  | cons item items ih =>
      rw [List.forall_mem_cons] at h
      simp [List.mapM_cons, h.1, ih h.2]

/-- What is read as a list is read item by item. -/
theorem exists_of_mapM_eq_some {α β : Type} {read : β → Option α} {values : List β}
    {items : List α} (h : values.mapM read = some items) {item : α} (hItem : item ∈ items) :
    ∃ value ∈ values, read value = some item := by
  induction values generalizing items with
  | nil =>
      rw [List.mapM_nil] at h
      cases h
      cases hItem
  | cons value values ih =>
      simp only [List.mapM_cons, Option.bind_eq_bind, Option.bind_eq_some_iff, Option.pure_def,
        Option.some.injEq] at h
      obtain ⟨first, hFirst, rest, hRest, rfl⟩ := h
      rcases List.mem_cons.mp hItem with rfl | hLater
      · exact ⟨value, List.mem_cons_self, hFirst⟩
      · obtain ⟨later, hMem, hRead⟩ := ih hRest hLater
        exact ⟨later, List.mem_cons_of_mem _ hMem, hRead⟩

theorem getElem?_of_mapM_eq_some {α β : Type} {read : β → Option α} {values : List β}
    {items : List α} (h : values.mapM read = some items) {index : Nat} {value : β} {item : α}
    (hValue : values[index]? = some value) (hItem : read value = some item) :
    items[index]? = some item := by
  induction values generalizing items index with
  | nil => cases hValue
  | cons first values ih =>
      simp only [List.mapM_cons, Option.bind_eq_bind, Option.bind_eq_some_iff, Option.pure_def,
        Option.some.injEq] at h
      obtain ⟨found, hFound, rest, hRest, rfl⟩ := h
      cases index with
      | zero =>
          cases hValue
          exact hFound.symm.trans hItem
      | succ index => exact ih hRest hValue

/-- The items of a list are read from parts of a value, which are finite if it is. -/
theorem exists_of_list?_eq_some {value : Json} {items : List α} (hFinite : value.IsFinite)
    (h : value.list? read = some items) {item : α} (hItem : item ∈ items) :
    ∃ part, part.IsFinite ∧ read part = some item := by
  cases hFinite with
  | @array values hParts =>
      obtain ⟨part, hPart, hRead⟩ := exists_of_mapM_eq_some h hItem
      exact ⟨part, hParts part hPart, hRead⟩
  | _ => cases h

end Lists

/-! ## Records -/

/-- The only field of a name is found. -/
theorem field?_eq_of_mem {fields : List (String × Json)} (h : (fields.map Prod.fst).Nodup)
    {field : String × Json} (hField : field ∈ fields) :
    field? fields field.1 = some (some field.2) := by
  have hFilter : fields.filter (fun other => other.1 == field.1) = [field] := by
    induction fields with
    | nil => cases hField
    | cons first fields ih =>
        rw [List.map_cons, List.nodup_cons] at h
        rcases List.mem_cons.mp hField with rfl | hLater
        · have hNone : fields.filter (fun other => other.1 == field.1) = [] := by
            refine List.filter_eq_nil_iff.mpr fun other hOther hSame => h.1 ?_
            rw [← beq_iff_eq.mp hSame]
            exact List.mem_map_of_mem hOther
          rw [List.filter_cons, if_pos (beq_self_eq_true _), hNone]
        · have hOther : ¬ (first.1 == field.1) = true := by
            intro hSame
            exact h.1 (beq_iff_eq.mp hSame ▸ List.mem_map_of_mem hLater)
          rw [List.filter_cons, if_neg hOther, ih h.2 hLater]
  rw [field?, hFilter]

/-! ## Finite parts -/

theorem index?_le {value : Json} {index : Nat} (h : value.index? = some index) :
    index ≤ Index.largest := by
  unfold index? at h
  split at h
  · split at h
    · rename_i hLe
      cases h
      exact hLe
    · cases h
  · cases h

theorem IsFinite.of_real? {value : Json} {number : Float} (hFinite : value.IsFinite)
    (h : value.real? = some number) : number.isFinite = true := by
  cases hFinite with
  | number hLiteral => exact hLiteral number h
  | _ => cases h

/-- The values of a record are parts of the value from which it is read. -/
theorem IsFinite.of_record? {names : List String} {value : Json} {values : List (Option Json)}
    (hFinite : value.IsFinite) (h : value.record? names = some values) :
    ∀ part, some part ∈ values → part.IsFinite := by
  intro part hPart
  cases hFinite with
  | @array items hItems =>
      rw [record?] at h
      split at h
      · cases h
        rw [List.mem_append, List.mem_map] at hPart
        rcases hPart with ⟨item, hItem, hSame⟩ | hMissing
        · exact Option.some.inj hSame ▸ hItems item hItem
        · cases List.eq_of_mem_replicate hMissing
      · cases h
  | @object fields hFields =>
      simp only [record?, Option.bind_eq_bind, Option.bind_eq_some_iff] at h
      obtain ⟨named, hNamed, hValues⟩ := h
      obtain ⟨name, _, hRead⟩ := exists_of_mapM_eq_some hValues hPart
      have hMem : ∃ field ∈ named, field.2 = part := by
        unfold field? at hRead
        split at hRead
        · cases hRead
        · rename_i field hOnly
          cases hRead
          exact ⟨field, List.mem_of_mem_filter (hOnly ▸ List.mem_singleton_self field), rfl⟩
        · cases hRead
      obtain ⟨field, hField, rfl⟩ := hMem
      obtain ⟨found, hFound, hName⟩ := exists_of_mapM_eq_some hNamed hField
      obtain ⟨_, _, rfl⟩ := Option.map_eq_some_iff.mp hName
      exact hFields found hFound
  | _ => cases h

theorem IsFinite.of_fullRecord? {names : List String} {value : Json} {values : List Json}
    (hFinite : value.IsFinite) (h : value.fullRecord? names = some values) :
    ∀ part ∈ values, part.IsFinite := by
  intro part hPart
  obtain ⟨found, hFound, hValues⟩ := Option.bind_eq_some_iff.mp h
  obtain ⟨value, hValue, hSame⟩ := exists_of_mapM_eq_some hValues hPart
  exact hFinite.of_record? hFound part (hSame ▸ hValue)

/-! ## Printed documents -/

namespace Document

/-- The value that is read from the text of a document. -/
def shown (document : Document) : Json :=
  document.withNulls.value

theorem shown_array (items : List Document) : (array items).shown = .array (items.map shown) := by
  have hItems : value.itemValues (withNulls.itemsWithNulls items) = items.map shown := by
    induction items with
    | nil => rfl
    | cons item items ih =>
        rw [withNulls.itemsWithNulls, value.itemValues, ih]
        rfl
  rw [shown, withNulls, value, hItems]

theorem shown_object (fields : List (String × Document)) :
    (object fields).shown = .object (fields.map fun field => (some field.1, field.2.shown)) := by
  have hFields : value.fieldValues (withNulls.fieldsWithNulls fields) =
      fields.map fun field => (some field.1, field.2.shown) := by
    induction fields with
    | nil => rfl
    | cons field fields ih =>
        rw [withNulls.fieldsWithNulls, value.fieldValues, ih]
        rfl
  rw [shown, withNulls, value, hFields]

/-- The items of a list are printed one by one. -/
theorem isPlain_array {depth : Nat} {items : List Document}
    (h : ∀ item ∈ items, item.withNulls.IsPlain depth) :
    (array items).withNulls.IsPlain (depth + 1) := by
  have hItems : withNulls.itemsWithNulls items = items.map withNulls := by
    induction items with
    | nil => rfl
    | cons item items ih =>
        rw [List.forall_mem_cons] at h
        rw [withNulls.itemsWithNulls, ih h.2, List.map_cons]
  rw [withNulls, hItems]
  exact .array (List.forall_mem_map.mpr h)

theorem isPlain_object {depth : Nat} {fields : List (String × Document)}
    (hNames : (fields.map Prod.fst).Nodup)
    (h : ∀ field ∈ fields, field.2.withNulls.IsPlain depth) :
    (object fields).withNulls.IsPlain (depth + 1) := by
  have hFields : withNulls.fieldsWithNulls fields =
      fields.map fun field => (field.1, field.2.withNulls) := by
    clear hNames
    induction fields with
    | nil => rfl
    | cons field fields ih =>
        rw [List.forall_mem_cons] at h
        rw [withNulls.fieldsWithNulls, ih h.2, List.map_cons]
  rw [withNulls, hFields]
  refine .object ?_ (List.forall_mem_map.mpr h)
  rwa [List.map_map]

end Document

/-- A document is read as what is printed of it. -/
theorem Codec.Faithful.exists_text {codec : Codec} (hCodec : codec.Faithful) {document : Document}
    (h : document.withNulls.IsPlain largestDepth) :
    ∃ text, codec.write? document = some text ∧ codec.parse? text = some document.shown := by
  obtain ⟨text, hText, hValue⟩ := hCodec.reads_back document.withNulls h
  exact ⟨text, (hCodec.writes_null document).trans hText, hValue⟩

/-- The values of a record that was written with all its fields. -/
theorem record?_shown {fields : List (String × Document)} (h : (fields.map Prod.fst).Nodup) :
    (Document.object fields).shown.record? (fields.map Prod.fst) =
      some (fields.map fun field => some field.2.shown) := by
  let named := fields.map fun field => (field.1, field.2.shown)
  have hNames : named.map Prod.fst = fields.map Prod.fst := List.map_map
  have hNamed : (fields.map fun field => (some field.1, field.2.shown)).mapM
      (fun (field : Option String × Json) => field.1.map fun name => (name, field.2)) =
      some named := by
    rw [List.mapM_map]
    exact mapM_eq_some_map fun _ _ => rfl
  have hFields : (fields.map Prod.fst).mapM (field? named) =
      some (fields.map fun field => some field.2.shown) := by
    rw [List.mapM_map]
    refine mapM_eq_some_map fun field hField => ?_
    exact field?_eq_of_mem (hNames ▸ h) (List.mem_map_of_mem hField)
  simp only [Document.shown_object, record?, hNamed, Option.bind_eq_bind, Option.bind_some,
    hFields]

theorem fullRecord?_shown {fields : List (String × Document)}
    (h : (fields.map Prod.fst).Nodup) :
    (Document.object fields).shown.fullRecord? (fields.map Prod.fst) =
      some (fields.map fun field => field.2.shown) := by
  have hValues : (fields.map fun field => some field.2.shown).mapM id =
      some (fields.map fun field => field.2.shown) := by
    rw [List.mapM_map]
    exact mapM_eq_some_map fun _ _ => rfl
  simp only [fullRecord?, record?_shown h, Option.bind_eq_bind, Option.bind_some, hValues]

/-! ## Descriptions -/

/-- An item, if numbers are finite. -/
def whenFinite {α : Type} (numbers : List Float) (item : α) : Option α :=
  if numbers.all Float.isFinite then some item else none

theorem whenFinite_nil {α : Type} (item : α) : whenFinite [] item = some item := rfl

theorem whenFinite_append_comm {α : Type} (first second : List Float) (item : α) :
    whenFinite (first ++ second) item = whenFinite (second ++ first) item := by
  rw [whenFinite, whenFinite, List.all_append, List.all_append, Bool.and_comm]

/-- What is read after a part is in want of the numbers of both. -/
theorem whenFinite_bind {α β : Type} {numbers more : List Float} {item : α} {result : β}
    {read : α → Option β} (h : read item = whenFinite more result) :
    (whenFinite numbers item).bind read = whenFinite (numbers ++ more) result := by
  rw [whenFinite, whenFinite, List.all_append]
  by_cases hNumbers : numbers.all Float.isFinite = true
  · rw [if_pos hNumbers, Option.bind_some, h, hNumbers, Bool.true_and, whenFinite]
  · rw [if_neg hNumbers, Option.bind_none, Bool.eq_false_iff.mpr hNumbers, Bool.false_and]
    rfl

/-- What is made of a part is in want of its numbers only. -/
theorem whenFinite_bind_some {α β : Type} {numbers : List Float} {item : α} {result : β}
    {read : α → Option β} (h : read item = some result) :
    (whenFinite numbers item).bind read = whenFinite numbers result := by
  rw [whenFinite_bind (h.trans (whenFinite_nil result).symm), List.append_nil]

/-- The document of an item: it is printed, and what is printed is read as the item if the
numbers in the item are finite, and as nothing otherwise. -/
structure Describes {α : Type} (read : Json → Option α) (depth : Nat) (document : Document)
    (item : α) (numbers : List Float) : Prop where
  plain : document.withNulls.IsPlain depth
  read_eq : read document.shown = whenFinite numbers item

variable {depth : Nat}

theorem describes_index {index : Nat} (h : index ≤ Index.largest) :
    Describes index? depth (.index index) index [] :=
  ⟨.index h, if_pos h⟩

/-- What is no finite number is printed, but not read back. -/
theorem describes_real (number : Float) :
    Describes real? depth (.real number) number [number] := by
  cases hFinite : number.isFinite with
  | true =>
      have hSame : (Document.real number).withNulls = .real number := if_pos hFinite
      constructor
      · rw [hSame]
        exact .real hFinite
      · rw [Document.shown, hSame]
        simp [Document.value, real?, JsonNumber.real?, hFinite, whenFinite]
  | false =>
      have hNull : (Document.real number).withNulls = .null :=
        if_neg (Bool.eq_false_iff.mp hFinite)
      constructor
      · rw [hNull]
        exact .null
      · rw [Document.shown, hNull]
        simp [Document.value, real?, hFinite, whenFinite]

section Lists

variable {α : Type} {read : Json → Option α} {write : α → Document} {numbers : α → List Float}

theorem mapM_shown_eq {items : List α}
    (h : ∀ item ∈ items, Describes read depth (write item) item (numbers item)) :
    (items.map fun item => (write item).shown).mapM read =
      whenFinite (items.flatMap numbers) items := by
  induction items with
  | nil => rfl
  | cons item items ih =>
      rw [List.forall_mem_cons] at h
      rw [List.map_cons, List.mapM_cons, h.1.read_eq, ih h.2, List.flatMap_cons]
      exact whenFinite_bind (whenFinite_bind_some rfl)

/-- A list is described by the descriptions of its items. -/
theorem describes_list {items : List α}
    (h : ∀ item ∈ items, Describes read depth (write item) item (numbers item)) :
    Describes (list? read) (depth + 1) (.array (items.map write)) items
      (items.flatMap numbers) where
  plain := Document.isPlain_array (List.forall_mem_map.mpr fun item hItem => (h item hItem).plain)
  read_eq := by
    rw [← mapM_shown_eq h, Document.shown_array, List.map_map]
    rfl

end Lists

end ForestGraph.Json
