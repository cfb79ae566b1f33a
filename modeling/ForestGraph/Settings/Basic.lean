import ForestGraph.Error
import ForestGraph.Graph.Rebuild
import ForestGraph.Number.Layout
import ForestGraph.Verbosity

/-!
# Settings

The settings shared by logging, expansion, comparison of graphs and evaluation
of several inputs.  `Settings.validate` states their limits.  A `Draft` builds
settings step by step and collects a complaint about every step that breaks a
limit, also one that a later step mends.
-/

namespace ForestGraph

/-- The version of the library that programs report. -/
def version : String := "0.1.0"

/-- All settings. -/
structure Settings where
  /-- How much is logged. -/
  verbosity : Verbosity
  /-- The largest number of expanding passes over a graph. -/
  maxRefineIterations : Nat
  /-- Whether the shape of a forest is checked before it is expanded. -/
  validateForest : Bool
  /-- The deviation up to which two graphs count as equivalent. -/
  equivalenceTolerance : Float
  /-- The number of threads that evaluate several inputs; zero for every core. -/
  numThreads : Nat
  deriving BEq, DecidableEq

/-- Whether a number may bound a deviation. -/
def isTolerance (number : Float) : Bool :=
  number.isFinite && !decide (number < 0)

namespace Settings

/-- The settings that hold unless others are given. -/
def default : Settings where
  verbosity := .info
  maxRefineIterations := 10
  validateForest := true
  equivalenceTolerance := 1e-9
  numThreads := 0

/-- The names of the settings, in the order in which they are written. -/
def names : List String :=
  ["verbosity", "max_refine_iterations", "validate_forest", "equivalence_tolerance",
    "num_threads"]

/-- The limits of the settings. -/
def validate (settings : Settings) : Except Error Unit :=
  if settings.maxRefineIterations = 0 then
    .error (.setting "max_refine_iterations" (toString settings.maxRefineIterations)
      "must be at least 1")
  else if !isTolerance settings.equivalenceTolerance then
    .error (.setting "equivalence_tolerance"
      (Layout.plain.write settings.equivalenceTolerance)
      "must be a finite, non-negative number")
  else .ok ()

/-- The options of a rebuild under these settings. -/
def rebuildOptions (settings : Settings) : RebuildOptions :=
  ⟨settings.maxRefineIterations, settings.validateForest⟩

/-- The number of threads that a machine with a number of cores uses. -/
def threadsOn (settings : Settings) (cores : Nat) : Nat :=
  if settings.numThreads = 0 then cores else settings.numThreads

/-- Every setting by name, in words. -/
def parameters (settings : Settings) : List (String × String) :=
  names.zip
    [settings.verbosity.word, toString settings.maxRefineIterations,
      toString settings.validateForest, Layout.plain.write settings.equivalenceTolerance,
      toString settings.numThreads]

/-- The prepared logging of a program. -/
structure Logging where
  /-- Lines less severe than this level are dropped. -/
  verbosity : Verbosity
  deriving DecidableEq

/-- Prepares logging under valid settings. -/
def openLog (settings : Settings) : Except Error Logging := do
  settings.validate
  return ⟨settings.verbosity⟩

theorem isTolerance_default : isTolerance default.equivalenceTolerance = true := by
  decide +kernel

theorem validate_default : default.validate = .ok () := by
  simp [validate, isTolerance_default]
  decide

theorem isTolerance_of_validate {settings : Settings} (h : settings.validate = .ok ()) :
    isTolerance settings.equivalenceTolerance = true := by
  unfold validate at h
  split at h
  · cases h
  · split at h
    · cases h
    · rename_i hTolerance
      simpa using hTolerance

end Settings

/-- Settings under construction. -/
structure Draft where
  settings : Settings
  complaints : List String

namespace Draft

/-- A draft of the default settings. -/
def start : Draft :=
  ⟨Settings.default, []⟩

/-- Sets how much is logged. -/
def verbosity (draft : Draft) (level : Verbosity) : Draft :=
  { draft with settings := { draft.settings with verbosity := level } }

/-- Adds a complaint unless a condition holds. -/
def require (draft : Draft) (condition : Bool) (complaint : String) : Draft :=
  if condition then draft
  else { draft with complaints := draft.complaints ++ [complaint] }

/-- Sets the largest number of passes, which is not zero. -/
def maxRefineIterations (draft : Draft) (passes : Nat) : Draft :=
  let draft := draft.require (decide (passes ≠ 0)) "max_refine_iterations must be at least 1"
  { draft with settings := { draft.settings with maxRefineIterations := passes } }

/-- Sets whether forests are checked. -/
def validateForest (draft : Draft) (check : Bool) : Draft :=
  { draft with settings := { draft.settings with validateForest := check } }

/-- Sets the tolerance, which is finite and not negative. -/
def equivalenceTolerance (draft : Draft) (tolerance : Float) : Draft :=
  let draft := draft.require (isTolerance tolerance)
    "equivalence_tolerance must be a finite, non-negative number"
  { draft with settings := { draft.settings with equivalenceTolerance := tolerance } }

/-- Sets the number of threads. -/
def numThreads (draft : Draft) (threads : Nat) : Draft :=
  { draft with settings := { draft.settings with numThreads := threads } }

/-- The finished settings, if there were no complaints. -/
def build (draft : Draft) : Except Error Settings := do
  if !draft.complaints.isEmpty then throw (.draftRefused draft.complaints)
  draft.settings.validate
  return draft.settings

end Draft

end ForestGraph
