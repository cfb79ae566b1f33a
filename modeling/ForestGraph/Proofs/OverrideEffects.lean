import Mathlib.Data.List.Nodup
import ForestGraph.Proofs.SettingTexts

/-!
# Effects of overrides

Overrides succeed exactly if every variable that is set can be read and the resulting
settings keep their limits.  A variable that cannot be read ends the reading: the settings
before it have been overridden, its own and those behind it have not.  Settings beyond
their limits are refused only after all of them have been overridden.
-/

namespace ForestGraph

/-! ## Variables -/

namespace Setting

/-- The last part of the name of a variable. -/
def suffix : Setting → String
  | verbosity => "VERBOSITY"
  | maxRefineIterations => "MAX_REFINE_ITERATIONS"
  | validateForest => "VALIDATE_FOREST"
  | equivalenceTolerance => "EQUIVALENCE_TOLERANCE"
  | numThreads => "NUM_THREADS"

/-- The name of the variable that overrides a setting. -/
def variableName (setting : Setting) : String :=
  "FOREST_LOWER_" ++ setting.suffix

/-- The override of a setting. -/
def override (setting : Setting) : Settings.Override where
  suffix := setting.suffix
  override? settings text := (setting.read? text).map (setting.set settings)

theorem variablePrefix_append_suffix (setting : Setting) :
    Settings.variablePrefix ++ setting.override.suffix = setting.variableName := rfl

theorem override?_eq (setting : Setting) (settings : Settings) (text : String) :
    setting.override.override? settings text =
      (setting.read? text).map (setting.set settings) := rfl

end Setting

namespace Settings

theorem overrides_eq : overrides = Setting.all.map Setting.override := rfl

/-! ## What one variable does -/

variable {lookup : Lookup} {setting : Setting}

/-- A variable is not set, or set to a value of its setting. -/
def Readable (lookup : Lookup) (setting : Setting) : Prop :=
  ∀ text, lookup setting.variableName = some text → ∃ value, setting.Spells text value

/-- A setting has the value of its variable, or the one from before if the variable is
not set. -/
inductive Takes (lookup : Lookup) (setting : Setting) (before after : Settings) : Prop where
  | unset : lookup setting.variableName = none → setting.get after = setting.get before →
      Takes lookup setting before after
  | set {text : String} : lookup setting.variableName = some text →
      setting.Spells text (setting.get after) → Takes lookup setting before after

namespace Takes

variable {before after first second : Settings}

theorem get_eq (hFirst : Takes lookup setting before first)
    (hSecond : Takes lookup setting before second) : setting.get first = setting.get second := by
  cases hFirst with
  | unset hUnset hKeeps =>
      cases hSecond with
      | unset _ hKeeps' => rw [hKeeps, hKeeps']
      | set hSet => rw [hUnset] at hSet; cases hSet
  | set hSet hSpells =>
      cases hSecond with
      | unset hUnset => rw [hUnset] at hSet; cases hSet
      | set hSet' hSpells' =>
          cases hSet.symm.trans hSet'
          exact hSpells.unique hSpells'

/-- What the settings were before matters only where the variable is not set. -/
theorem of_get_eq (h : Takes lookup setting first after)
    (hBefore : setting.get first = setting.get before) : Takes lookup setting before after := by
  cases h with
  | unset hUnset hKeeps => exact .unset hUnset (hKeeps.trans hBefore)
  | set hSet hSpells => exact .set hSet hSpells

/-- A setting that has been overridden is overridden by itself. -/
theorem again (h : Takes lookup setting before after) : Takes lookup setting after after := by
  cases h with
  | unset hUnset _ => exact .unset hUnset rfl
  | set hSet hSpells => exact .set hSet hSpells

end Takes

/-! ## What a list of variables does -/

variable {settings : Settings} {later : List Override}

theorem applyEach_unset (hUnset : lookup setting.variableName = none) :
    applyEach lookup settings (setting.override :: later) = applyEach lookup settings later := by
  rw [applyEach, setting.variablePrefix_append_suffix, hUnset]

theorem applyEach_set {text : String} {value : setting.Value}
    (hSet : lookup setting.variableName = some text) (hSpells : setting.Spells text value) :
    applyEach lookup settings (setting.override :: later) =
      applyEach lookup (setting.set settings value) later := by
  have hOverride : setting.override.override? settings text =
      some (setting.set settings value) := by
    rw [Setting.override?_eq, Setting.read?_eq_some_iff.mpr hSpells, Option.map_some]
  rw [applyEach, setting.variablePrefix_append_suffix, hSet]
  simp only [hOverride]

theorem applyEach_unreadable (hUnreadable : ¬ Readable lookup setting) :
    applyEach lookup settings (setting.override :: later) =
      (settings, .error (.overrideText setting.variableName)) := by
  unfold Readable at hUnreadable
  push Not at hUnreadable
  obtain ⟨text, hSet, hNoValue⟩ := hUnreadable
  have hRead : setting.read? text = none := by
    rw [Option.eq_none_iff_forall_ne_some]
    intro value hValue
    exact hNoValue value (Setting.read?_eq_some_iff.mp hValue)
  have hOverride : setting.override.override? settings text = none := by
    rw [Setting.override?_eq, hRead, Option.map_none]
  rw [applyEach, setting.variablePrefix_append_suffix, hSet]
  simp only [hOverride]

/-- Variables that can be read override their settings and no others. -/
theorem applyEach_readable {earlier : List Setting} (hNodup : earlier.Nodup)
    (hReadable : ∀ setting ∈ earlier, Readable lookup setting) (settings : Settings)
    (later : List Override) :
    ∃ middle,
      applyEach lookup settings (earlier.map Setting.override ++ later) =
        applyEach lookup middle later ∧
      (∀ setting ∈ earlier, Takes lookup setting settings middle) ∧
      ∀ setting ∉ earlier, setting.get middle = setting.get settings := by
  induction earlier generalizing settings with
  | nil => exact ⟨settings, rfl, nofun, fun _ _ => rfl⟩
  | cons setting earlier ih =>
      obtain ⟨hFresh, hNodup⟩ := List.nodup_cons.mp hNodup
      rw [List.forall_mem_cons] at hReadable
      cases hLookup : lookup setting.variableName with
      | none =>
          obtain ⟨middle, hRun, hTakes, hKeeps⟩ := ih hNodup hReadable.2 settings
          refine ⟨middle, (applyEach_unset hLookup).trans hRun, ?_, ?_⟩
          · rw [List.forall_mem_cons]
            exact ⟨.unset hLookup (hKeeps setting hFresh), hTakes⟩
          · intro other hOther
            exact hKeeps other (List.not_mem_of_not_mem_cons hOther)
      | some text =>
          obtain ⟨value, hSpells⟩ := hReadable.1 text hLookup
          obtain ⟨middle, hRun, hTakes, hKeeps⟩ :=
            ih hNodup hReadable.2 (setting.set settings value)
          refine ⟨middle, (applyEach_set hLookup hSpells).trans hRun, ?_, ?_⟩
          · rw [List.forall_mem_cons]
            constructor
            · refine .set hLookup ?_
              rwa [hKeeps setting hFresh, Setting.get_set_self]
            · intro other hOther
              have hNe : other ≠ setting := fun hEq => hFresh (hEq ▸ hOther)
              exact (hTakes other hOther).of_get_eq (Setting.get_set_of_ne settings value hNe)
          · intro other hOther
            rw [hKeeps other (List.not_mem_of_not_mem_cons hOther),
              Setting.get_set_of_ne settings value (List.ne_of_not_mem_cons hOther)]

/-! ## What all variables do -/

theorem category_of_validate {error : Error} (h : settings.validate = .error error) :
    error.category = .invalidParameter := by
  unfold validate at h
  split at h
  · cases h; rfl
  · split at h
    · cases h; rfl
    · cases h

/-- All variables are read: the settings have taken their values and are checked. -/
theorem applyOverrides_readable (hReadable : ∀ setting, Readable lookup setting)
    (settings : Settings) :
    (∀ setting, Takes lookup setting settings (settings.applyOverrides lookup).1) ∧
      (settings.applyOverrides lookup).2 = (settings.applyOverrides lookup).1.validate := by
  obtain ⟨middle, hRun, hTakes, -⟩ := applyEach_readable Setting.nodup_all
    (fun setting _ => hReadable setting) settings []
  have hApply : settings.applyOverrides lookup = (middle, middle.validate) := by
    rw [applyOverrides, overrides_eq, ← List.append_nil (List.map _ _), hRun, applyEach]
  rw [hApply]
  exact ⟨fun setting => hTakes setting setting.mem_all, rfl⟩

/-- The first variable that cannot be read ends the reading. -/
theorem applyOverrides_unreadable {earlier later : List Setting}
    (hAll : Setting.all = earlier ++ setting :: later)
    (hReadable : ∀ other ∈ earlier, Readable lookup other) (hUnreadable : ¬ Readable lookup setting)
    (settings : Settings) :
    (settings.applyOverrides lookup).2 = .error (.overrideText setting.variableName) ∧
      (∀ other ∈ earlier, Takes lookup other settings (settings.applyOverrides lookup).1) ∧
      ∀ other ∈ setting :: later,
        other.get (settings.applyOverrides lookup).1 = other.get settings := by
  have hNodup := Setting.nodup_all
  rw [hAll, List.nodup_append'] at hNodup
  obtain ⟨hNodup, -, hDisjoint⟩ := hNodup
  obtain ⟨middle, hRun, hTakes, hKeeps⟩ := applyEach_readable hNodup hReadable settings
    ((setting :: later).map Setting.override)
  have hApply : settings.applyOverrides lookup =
      (middle, .error (.overrideText setting.variableName)) := by
    rw [applyOverrides, overrides_eq, hAll, List.map_append, hRun, List.map_cons,
      applyEach_unreadable hUnreadable]
  rw [hApply]
  exact ⟨rfl, hTakes, fun other hOther => hKeeps other fun hEarlier => hDisjoint hEarlier hOther⟩

/-- What overrides do to settings, and how they end. -/
structure OverrideEffect (lookup : Lookup) (before after : Settings)
    (outcome : Except Error Unit) : Prop where
  /-- They succeed exactly if all variables can be read and the result is valid. -/
  succeeds : outcome = .ok () ↔ (∀ setting, Readable lookup setting) ∧
    ∃ result, (∀ setting, Takes lookup setting before result) ∧ result.validate = .ok ()
  /-- Overriding once more changes nothing. -/
  success : outcome = .ok () → (∀ setting, Takes lookup setting before after) ∧
    after.validate = .ok () ∧ after.applyOverrides lookup = (after, .ok ())
  /-- The first variable that cannot be read is named, and only the settings before it
  are overridden. -/
  unreadable : ∀ earlier setting later, Setting.all = earlier ++ setting :: later →
    (∀ other ∈ earlier, Readable lookup other) → ¬ Readable lookup setting →
    (∃ error, outcome = .error error ∧ error.category = .config ∧
      error.message = "Configuration error: Invalid " ++ setting.variableName) ∧
    (∀ other ∈ earlier, Takes lookup other before after) ∧
    ∀ other ∈ setting :: later, other.get after = other.get before
  /-- Settings beyond their limits are refused with all overrides in them. -/
  invalid : (∀ setting, Readable lookup setting) →
    (∀ result, (∀ setting, Takes lookup setting before result) → result.validate ≠ .ok ()) →
    (∀ setting, Takes lookup setting before after) ∧
    ∃ error, outcome = .error error ∧ error.category = .invalidParameter

theorem exists_first_unreadable {listed : List Setting}
    (h : ¬ ∀ setting ∈ listed, Readable lookup setting) :
    ∃ earlier setting later, listed = earlier ++ setting :: later ∧
      (∀ other ∈ earlier, Readable lookup other) ∧ ¬ Readable lookup setting := by
  induction listed with
  | nil => exact absurd nofun h
  | cons setting later ih =>
      by_cases hReadable : Readable lookup setting
      · obtain ⟨earlier, other, later, rfl, hEarlier, hUnreadable⟩ :=
          ih fun hLater => h (List.forall_mem_cons.mpr ⟨hReadable, hLater⟩)
        exact ⟨setting :: earlier, other, later, rfl,
          List.forall_mem_cons.mpr ⟨hReadable, hEarlier⟩, hUnreadable⟩
      · exact ⟨[], setting, later, rfl, nofun, hReadable⟩

theorem readable_of_applyOverrides_eq_ok (h : (settings.applyOverrides lookup).2 = .ok ()) :
    ∀ setting, Readable lookup setting := by
  by_contra hUnreadable
  have hListed : ¬ ∀ setting ∈ Setting.all, Readable lookup setting := fun hAll =>
    hUnreadable fun setting => hAll setting setting.mem_all
  obtain ⟨earlier, setting, later, hAll, hEarlier, hUnreadable⟩ :=
    exists_first_unreadable hListed
  rw [(applyOverrides_unreadable hAll hEarlier hUnreadable settings).1] at h
  cases h

/-- Variables have one effect only. -/
theorem eq_of_takes {before left right : Settings}
    (hLeft : ∀ setting, Takes lookup setting before left)
    (hRight : ∀ setting, Takes lookup setting before right) : left = right :=
  Setting.eq_of_get fun setting => (hLeft setting).get_eq (hRight setting)

theorem applyOverrides_effect (settings : Settings) (lookup : Lookup) :
    OverrideEffect lookup settings (settings.applyOverrides lookup).1
      (settings.applyOverrides lookup).2 where
  succeeds := by
    constructor
    · intro hOk
      have hReadable := readable_of_applyOverrides_eq_ok hOk
      obtain ⟨hTakes, hOutcome⟩ := applyOverrides_readable hReadable settings
      exact ⟨hReadable, _, hTakes, hOutcome.symm.trans hOk⟩
    · rintro ⟨hReadable, result, hResult, hValid⟩
      obtain ⟨hTakes, hOutcome⟩ := applyOverrides_readable hReadable settings
      rw [hOutcome, eq_of_takes hTakes hResult, hValid]
  success := by
    intro hOk
    have hReadable := readable_of_applyOverrides_eq_ok hOk
    obtain ⟨hTakes, hOutcome⟩ := applyOverrides_readable hReadable settings
    have hValid := hOutcome.symm.trans hOk
    refine ⟨hTakes, hValid, ?_⟩
    generalize (settings.applyOverrides lookup).1 = after at hTakes hValid
    obtain ⟨hAgain, hOutcome⟩ := applyOverrides_readable hReadable after
    have hSame := eq_of_takes hAgain fun setting => (hTakes setting).again
    rw [hSame, hValid] at hOutcome
    exact Prod.ext hSame hOutcome
  unreadable := by
    intro earlier setting later hAll hReadable hUnreadable
    obtain ⟨hOutcome, hTakes, hKeeps⟩ :=
      applyOverrides_unreadable hAll hReadable hUnreadable settings
    refine ⟨⟨_, hOutcome, rfl, ?_⟩, hTakes, hKeeps⟩
    cases setting <;> decide +kernel
  invalid := by
    intro hReadable hInvalid
    obtain ⟨hTakes, hOutcome⟩ := applyOverrides_readable hReadable settings
    refine ⟨hTakes, ?_⟩
    cases hError : (settings.applyOverrides lookup).1.validate with
    | ok => exact absurd hError (hInvalid _ hTakes)
    | error error => exact ⟨error, hOutcome.trans hError, category_of_validate hError⟩

end Settings

end ForestGraph
