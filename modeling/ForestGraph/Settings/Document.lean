import ForestGraph.Json.Codec
import ForestGraph.Settings.Basic
import ForestGraph.Toml.Codec

/-!
# Settings as documents

Settings are written and read as JSON and as TOML.  A document may leave out
any setting, which then has its default value, and may hold anything else,
which is ignored.
-/

namespace ForestGraph

/-! ## Levels of verbosity -/

/-- Reads a level from its name, or from a record whose only field has that
name. -/
def Verbosity.ofJson? : Json → Option Verbosity
  | .string (some name) => ofName? name
  | .object [(some name, .null)] => ofName? name
  | _ => none

/-- Reads a level from its name, or from a table whose only entry has that name
and nothing in it. -/
def Verbosity.ofToml? : Toml → Option Verbosity
  | .string name => ofName? name
  | .table _ [(name, .table _ [])] => ofName? name
  | .table _ [(name, .array [])] => ofName? name
  | _ => none

namespace Settings

/-! ## JSON -/

/-- Settings as a JSON document. -/
def document (settings : Settings) : Json.Document :=
  .object (names.zip
    [.string settings.verbosity.name, .index settings.maxRefineIterations,
      .bool settings.validateForest, .real settings.equivalenceTolerance,
      .index settings.numThreads])

/-- Reads a setting that may be missing. -/
def orDefault {α β : Type} (read : α → Option β) (missing : β) : Option α → Option β
  | none => some missing
  | some value => read value

/-- Reads settings from a JSON value. -/
def ofJson? (value : Json) : Option Settings := do
  match ← value.record? names with
  | [verbosity, maxRefineIterations, validateForest, equivalenceTolerance, numThreads] =>
      return {
        verbosity := ← orDefault Verbosity.ofJson? default.verbosity verbosity
        maxRefineIterations := ←
          orDefault Json.index? default.maxRefineIterations maxRefineIterations
        validateForest := ← orDefault Json.bool? default.validateForest validateForest
        equivalenceTolerance := ←
          orDefault Json.real? default.equivalenceTolerance equivalenceTolerance
        numThreads := ← orDefault Json.index? default.numThreads numThreads
      }
  | _ => none

/-! ## TOML -/

/-- Settings as a TOML table. -/
def table (settings : Settings) : List (String × Toml.Scalar) :=
  names.zip
    [.string settings.verbosity.name, .natural settings.maxRefineIterations,
      .boolean settings.validateForest, .real settings.equivalenceTolerance,
      .natural settings.numThreads]

/-- A count given by an integer that is not negative. -/
def tomlCount? : Toml → Option Nat
  | .integer number => if 0 ≤ number then some number.toNat else none
  | _ => none

/-- A number, which may be written as an integer. -/
def tomlReal? : Toml → Option Float
  | .real number => some number
  | .integer number => some (Decimal.toFloat ⟨decide (number < 0), number.natAbs, 0⟩)
  | _ => none

/-- A truth value. -/
def tomlBoolean? : Toml → Option Bool
  | .boolean truth => some truth
  | _ => none

/-- Reads settings from the entries of a TOML document. -/
def ofToml? (entries : Toml.Entries) : Option Settings := do
  match names.map entries.find? with
  | [verbosity, maxRefineIterations, validateForest, equivalenceTolerance, numThreads] =>
      return {
        verbosity := ← orDefault Verbosity.ofToml? default.verbosity verbosity
        maxRefineIterations := ←
          orDefault tomlCount? default.maxRefineIterations maxRefineIterations
        validateForest := ← orDefault tomlBoolean? default.validateForest validateForest
        equivalenceTolerance := ←
          orDefault tomlReal? default.equivalenceTolerance equivalenceTolerance
        numThreads := ← orDefault tomlCount? default.numThreads numThreads
      }
  | _ => none

end Settings

end ForestGraph
