import ForestGraph.Number.Literal
import ForestGraph.Settings.Basic

/-!
# Overrides

A program may override settings by variables, one for each setting, all with a
common beginning of their names.  The variables are read in a fixed order.  The
first whose text is no value of its setting ends the reading: the settings
before it have been overridden, that one and those behind it have not.  If all
can be read, the result is checked against the limits of the settings, which
keeps the overridden values even if it fails.
-/

namespace ForestGraph.Settings

/-- The beginning of the names of all variables. -/
def variablePrefix : String := "FOREST_LOWER_"

/-- The value of each variable that is set, by its full name. -/
abbrev Lookup := String → Option String

/-- Reads a truth value from a word, ASCII letters in either case. -/
def truth? (text : String) : Option Bool :=
  let word := text.map Char.toLower
  if ["1", "true", "yes"].contains word then some true
  else if ["0", "false", "no"].contains word then some false
  else none

/-- One override: the last part of the name of its variable, and the settings
with the value of a text put in, if it is a value of the setting. -/
structure Override where
  suffix : String
  override? : Settings → String → Option Settings

/-- The overrides, in the order in which their variables are read. -/
def overrides : List Override :=
  [⟨"VERBOSITY", fun settings text =>
      (Verbosity.parse? text).map fun level => { settings with verbosity := level }⟩,
   ⟨"MAX_REFINE_ITERATIONS", fun settings text =>
      (Literal.natural? text).map fun passes =>
        { settings with maxRefineIterations := passes }⟩,
   ⟨"VALIDATE_FOREST", fun settings text =>
      (truth? text).map fun check => { settings with validateForest := check }⟩,
   ⟨"EQUIVALENCE_TOLERANCE", fun settings text =>
      (Literal.real? text).map fun tolerance =>
        { settings with equivalenceTolerance := tolerance }⟩,
   ⟨"NUM_THREADS", fun settings text =>
      (Literal.natural? text).map fun threads => { settings with numThreads := threads }⟩]

/-- Applies overrides in order up to the first that cannot be read. -/
def applyEach (lookup : Lookup) (settings : Settings) :
    List Override → Settings × Except Error Unit
  | [] => (settings, settings.validate)
  | override :: later =>
      let name := variablePrefix ++ override.suffix
      match lookup name with
      | none => applyEach lookup settings later
      | some text =>
          match override.override? settings text with
          | none => (settings, .error (.overrideText name))
          | some overridden => applyEach lookup overridden later

/-- Applies all overrides; gives the settings reached also when it fails. -/
def applyOverrides (settings : Settings) (lookup : Lookup) : Settings × Except Error Unit :=
  applyEach lookup settings overrides

/-- The default settings with all overrides applied. -/
def ofVariables (lookup : Lookup) : Except Error Settings := do
  let (settings, result) := default.applyOverrides lookup
  result
  return settings

end ForestGraph.Settings
