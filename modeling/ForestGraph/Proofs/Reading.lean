import Mathlib.Data.List.Forall2
import Mathlib.Data.List.Basic
import ForestGraph.Graph.Node

/-!
# Reading values

What it means that a selection can be read in an evaluation.  Reading is
pointwise: every element has a value of its own, and a selection of numbers or
truth values is read by stripping the tags off those values.  The general
facts on `Except` at the start turn a computation into its steps.
-/

namespace ForestGraph

/-- A sequence of two steps succeeds when both do. -/
theorem except_bind_eq_ok_iff {ε α β : Type} {step : Except ε α} {rest : α → Except ε β}
    {result : β} :
    step >>= rest = .ok result ↔ ∃ value, step = .ok value ∧ rest value = .ok result := by
  cases step <;> simp [bind, Except.bind]

/-- It fails when the first step does, or the second on what the first one gives. -/
theorem except_bind_eq_error_iff {α β : Type} {step : Except Error α}
    {rest : α → Except Error β} {error : Error} :
    step >>= rest = .error error ↔
      step = .error error ∨ ∃ value, step = .ok value ∧ rest value = .error error := by
  cases step <;> simp [bind, Except.bind]

@[simp] theorem except_pure_eq_ok_iff {α : Type} {value result : α} :
    (pure value : Except Error α) = .ok result ↔ value = result := by
  simp [pure, Except.pure]

@[simp] theorem except_throw_ne_ok {α : Type} (error : Error) (result : α) :
    (throw error : Except Error α) ≠ .ok result := by
  simp [throw, throwThe, MonadExceptOf.throw]

@[simp] theorem except_pure_ne_error {α : Type} (value : α) (error : Error) :
    (pure value : Except Error α) ≠ .error error := by
  simp [pure, Except.pure]

@[simp] theorem except_throw_eq_error_iff {α : Type} {error result : Error} :
    (throw error : Except Error α) = .error result ↔ error = result := by
  simp [throw, throwThe, MonadExceptOf.throw]

/-- A last step that only wraps up does not fail. -/
theorem except_bind_pure_eq_error_iff {α β : Type} {step : Except Error α} {wrap : α → β}
    {error : Error} :
    (step >>= fun value => pure (wrap value)) = .error error ↔ step = .error error := by
  rw [except_bind_eq_error_iff]
  simp only [except_pure_ne_error, and_false, exists_false, or_false]

/-- A traversal succeeds when every entry does, with the results in order. -/
theorem mapM_eq_ok_iff {α β : Type} {step : α → Except Error β} {entries : List α}
    {results : List β} :
    entries.mapM step = .ok results ↔
      List.Forall₂ (fun entry result => step entry = .ok result) entries results := by
  induction entries generalizing results with
  | nil =>
      rw [List.mapM_nil, List.forall₂_nil_left_iff]
      exact ⟨fun h => (Except.ok.inj h).symm, fun h => h ▸ rfl⟩
  | cons entry later ih =>
      rw [List.mapM_cons, except_bind_eq_ok_iff, List.forall₂_cons_left_iff]
      simp only [except_bind_eq_ok_iff, ih]
      constructor
      · rintro ⟨value, hValue, values, hValues, hResult⟩
        exact ⟨value, values, hValue, hValues, (Except.ok.inj hResult).symm⟩
      · rintro ⟨value, values, hValue, hValues, rfl⟩
        exact ⟨value, hValue, values, hValues, rfl⟩

/-- A traversal whose steps have one result each, under a condition. -/
theorem mapM_eq_ok_iff_map {α β : Type} {step : α → Except Error β} {admits : α → Prop}
    {image : α → β} (h : ∀ entry result, step entry = .ok result ↔
      admits entry ∧ result = image entry) {entries : List α} {results : List β} :
    entries.mapM step = .ok results ↔
      (∀ entry ∈ entries, admits entry) ∧ results = entries.map image := by
  rw [mapM_eq_ok_iff]
  simp only [h, List.forall₂_and_left]
  refine and_congr_right fun _ => ?_
  rw [eq_comm, ← List.forall₂_eq_eq_eq, List.forall₂_map_left_iff]
  simp only [@eq_comm _ (image _)]

/-- A traversal fails because one of the entries does. -/
theorem exists_of_mapM_eq_error {α β : Type} {step : α → Except Error β} {entries : List α}
    {error : Error} (h : entries.mapM step = .error error) :
    ∃ entry ∈ entries, step entry = .error error := by
  induction entries with
  | nil => simp at h
  | cons entry later ih =>
      rw [List.mapM_cons, except_bind_eq_error_iff] at h
      rcases h with hEntry | ⟨_, _, hLater⟩
      · exact ⟨entry, by simp, hEntry⟩
      · rw [except_bind_eq_error_iff] at hLater
        rcases hLater with hLater | ⟨_, _, hPure⟩
        · obtain ⟨other, hOther, hError⟩ := ih hLater
          exact ⟨other, by simp [hOther], hError⟩
        · exact absurd hPure (except_pure_ne_error _ _)

/-- Stripping a tag off every value succeeds on tagged values only. -/
theorem mapM_strip_eq_ok_iff {α β : Type} {tag : α → β} {strip : β → Except Error α}
    (h : ∀ {value : β} {entry : α}, strip value = .ok entry ↔ value = tag entry)
    {values : List β} {entries : List α} :
    values.mapM strip = .ok entries ↔ values = entries.map tag := by
  rw [mapM_eq_ok_iff]
  simp only [h]
  rw [← @List.forall₂_map_right_iff _ _ _ (· = ·) tag values entries, List.forall₂_eq_eq_eq]

/-- The partner of an entry of a list that is related pointwise to another. -/
theorem forall₂_getElem?_left {α β : Type} {related : α → β → Prop} {left : List α}
    {right : List β} (h : List.Forall₂ related left right) {index : Nat} {entry : α}
    (hEntry : left[index]? = some entry) :
    ∃ partner, right[index]? = some partner ∧ related entry partner := by
  induction h generalizing index with
  | nil => simp at hEntry
  | @cons first second _ _ hFirst _ ih =>
      cases index with
      | zero =>
          rw [List.getElem?_cons_zero, Option.some.injEq] at hEntry
          exact ⟨second, rfl, hEntry ▸ hFirst⟩
      | succ index => exact ih (by simpa using hEntry)

/-- The same from the other list. -/
theorem forall₂_getElem?_right {α β : Type} {related : α → β → Prop} {left : List α}
    {right : List β} (h : List.Forall₂ related left right) {index : Nat} {entry : β}
    (hEntry : right[index]? = some entry) :
    ∃ partner, left[index]? = some partner ∧ related partner entry :=
  forall₂_getElem?_left h.flip hEntry

/-- What holds of the entries of a list by their positions, entry by entry. -/
theorem forall_getElem?_cons_iff {α : Type} {property : Nat → α → Prop} {index : Nat} {first : α}
    {later : List α} :
    (∀ offset entry, (first :: later)[offset]? = some entry → property (index + offset) entry) ↔
      property index first ∧
        ∀ offset entry, later[offset]? = some entry → property (index + 1 + offset) entry := by
  constructor
  · intro h
    refine ⟨h 0 first rfl, fun offset entry hEntry => ?_⟩
    have hNext := h (offset + 1) entry (by simpa using hEntry)
    rwa [show index + (offset + 1) = index + 1 + offset by omega] at hNext
  · rintro ⟨hFirst, hLater⟩ offset entry hEntry
    cases offset with
    | zero =>
        rw [List.getElem?_cons_zero, Option.some.injEq] at hEntry
        subst hEntry
        exact hFirst
    | succ offset =>
        have hNext := hLater offset entry (by simpa using hEntry)
        rwa [show index + 1 + offset = index + (offset + 1) by omega] at hNext

/-- Partners that can be found one by one can be found in a row. -/
theorem exists_forall₂ {α β : Type} {related : α → β → Prop} {left : List α}
    (h : ∀ entry ∈ left, ∃ partner, related entry partner) :
    ∃ right, List.Forall₂ related left right := by
  induction left with
  | nil => exact ⟨[], .nil⟩
  | cons entry later ih =>
      obtain ⟨partner, hRelated⟩ := h entry (by simp)
      obtain ⟨partners, hPartners⟩ := ih fun other hOther => h other (by simp [hOther])
      exact ⟨partner :: partners, .cons hRelated hPartners⟩

/-- Partners that are images can be replaced by what they are images of. -/
theorem forall₂_exists_map_iff {α β γ : Type} {related : α → β → Prop} {image : β → γ}
    {left : List α} {right : List γ} :
    List.Forall₂ (fun entry result => ∃ partner, related entry partner ∧ result = image partner)
        left right ↔
      ∃ partners, List.Forall₂ related left partners ∧ right = partners.map image := by
  constructor
  · intro h
    induction h with
    | nil => exact ⟨[], .nil, rfl⟩
    | cons hFirst _ ih =>
        obtain ⟨partner, hRelated, rfl⟩ := hFirst
        obtain ⟨partners, hPartners, rfl⟩ := ih
        exact ⟨partner :: partners, .cons hRelated hPartners, rfl⟩
  · rintro ⟨partners, hPartners, rfl⟩
    rw [List.forall₂_map_right_iff]
    exact hPartners.imp fun _ partner hRelated => ⟨partner, hRelated, rfl⟩

/-- The entries of a list can be taken by their positions. -/
theorem forall₂_range_iff {α β : Type} {related : α → β → Prop} {left : List α}
    {right : List β} :
    List.Forall₂ (fun position result => ∃ entry, left[position]? = some entry ∧
        related entry result) (List.range left.length) right ↔
      List.Forall₂ related left right := by
  rw [List.forall₂_iff_get, List.forall₂_iff_get]
  simp only [List.length_range, List.get_eq_getElem, List.getElem_range]
  refine and_congr_right fun _ => forall_congr' fun index => forall_congr' fun hLeft => ?_
  simp only [List.getElem?_eq_getElem hLeft, Option.some.injEq, exists_eq_left']

namespace Value

theorem asReal_eq_ok_iff {value : Value} {number : Float} :
    value.asReal = .ok number ↔ value = .real number := by
  cases value <;> simp [asReal]

theorem asBoolean_eq_ok_iff {value : Value} {truth : Bool} :
    value.asBoolean = .ok truth ↔ value = .boolean truth := by
  cases value <;> simp [asBoolean]

end Value

namespace Evaluation

/-- A selection is read by reading its elements. -/
theorem read_eq_ok_iff {known : Evaluation} {selection : Selection} {values : List Value} :
    known.read selection = .ok values ↔
      List.Forall₂ (fun element value => known.value? element = some value)
        selection values := by
  rw [Evaluation.read, mapM_eq_ok_iff]
  simp only [value_eq_ok_iff]

theorem read_append_of_ok {known : Evaluation} {selection later : Selection}
    {values more : List Value} (hValues : known.read selection = .ok values)
    (hMore : known.read later = .ok more) :
    known.read (selection ++ later) = .ok (values ++ more) := by
  rw [read_append, hValues, hMore]
  rfl

theorem length_of_read {known : Evaluation} {selection : Selection} {values : List Value}
    (h : known.read selection = .ok values) : values.length = selection.length :=
  (read_eq_ok_iff.mp h).length_eq.symm

/-- The leading elements are read as the leading values. -/
theorem read_take {known : Evaluation} {selection : Selection} {values : List Value}
    (h : known.read selection = .ok values) (count : Nat) :
    known.read (selection.take count) = .ok (values.take count) :=
  read_eq_ok_iff.mpr (List.forall₂_take count (read_eq_ok_iff.mp h))

/-- One element is read as the value at its position. -/
theorem exists_read_element {known : Evaluation} {selection : Selection} {values : List Value}
    (h : known.read selection = .ok values) {position : Nat} {element : Element}
    (hElement : selection[position]? = some element) :
    ∃ value, values[position]? = some value ∧ known.read [element] = .ok [value] := by
  obtain ⟨value, hPosition, hValue⟩ := forall₂_getElem?_left (read_eq_ok_iff.mp h) hElement
  exact ⟨value, hPosition, read_eq_ok_iff.mpr (.cons hValue .nil)⟩

/-- Reading numbers succeeds on elements that hold numbers. -/
theorem readReals_eq_ok_iff {known : Evaluation} {selection : Selection}
    {numbers : List Float} :
    known.readReals selection = .ok numbers ↔
      known.read selection = .ok (numbers.map Value.real) := by
  rw [readReals, except_bind_eq_ok_iff]
  simp only [mapM_strip_eq_ok_iff Value.asReal_eq_ok_iff]
  exact ⟨fun ⟨values, hRead, hValues⟩ => hValues ▸ hRead, fun hRead => ⟨_, hRead, rfl⟩⟩

/-- Reading truth values succeeds on elements that hold truth values. -/
theorem readBooleans_eq_ok_iff {known : Evaluation} {selection : Selection}
    {truths : List Bool} :
    known.readBooleans selection = .ok truths ↔
      known.read selection = .ok (truths.map Value.boolean) := by
  rw [readBooleans, except_bind_eq_ok_iff]
  simp only [mapM_strip_eq_ok_iff Value.asBoolean_eq_ok_iff]
  exact ⟨fun ⟨values, hRead, hValues⟩ => hValues ▸ hRead, fun hRead => ⟨_, hRead, rfl⟩⟩

/-- A selector is a selection of one truth value. -/
theorem readSelector_of_read {known : Evaluation} {selection : Selection} {truth : Bool}
    (h : known.read selection = .ok [.boolean truth]) :
    known.readSelector selection = .ok truth := by
  have hTruths : known.readBooleans selection = .ok [truth] := readBooleans_eq_ok_iff.mpr h
  rw [readSelector, hTruths]
  rfl

end Evaluation

end ForestGraph
