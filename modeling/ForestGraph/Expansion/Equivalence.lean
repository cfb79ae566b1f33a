import ForestGraph.Expansion.Pass

/-!
# Comparing two graphs

`Graph.compare` evaluates two graphs on the same inputs and reports, for every
named output of the first, how far the second strays: the largest absolute
difference of numbers and the count of truth values that differ.
-/

namespace ForestGraph

/-- How far one named output strays, over all inputs. -/
structure Deviation where
  name : String
  maxAbsError : Float
  mismatches : Nat

/-- The deviations of two graphs on a number of inputs. -/
structure EquivalenceReport where
  inputsChecked : Nat
  tolerance : Float
  deviations : List Deviation

/-- The difference of two numbers.  Two NaNs agree, and a NaN is infinitely far
from a number. -/
def realError (expected actual : Float) : Float :=
  match expected.isNaN, actual.isNaN with
  | true, true => 0
  | false, false => (expected - actual).abs
  | _, _ => infinity

namespace Deviation

/-- A named output that has not strayed. -/
def none (name : String) : Deviation :=
  ⟨name, 0, 0⟩

/-- Adds the comparison of two values. -/
def compareValue (deviation : Deviation) (values : Value × Value) :
    Except Error Deviation :=
  match values with
  | (.real expected, .real actual) =>
      .ok { deviation with
        maxAbsError := larger deviation.maxAbsError (realError expected actual) }
  | (.boolean expected, .boolean actual) =>
      .ok (if expected = actual then deviation
        else { deviation with mismatches := deviation.mismatches + 1 })
  | _ => .error (.outputTypeChanged deviation.name)

/-- The values of a named output that has to be there. -/
def readOutput (graph : Graph) (evaluation : Evaluation) (name : String) :
    Except Error (List Value) :=
  match graph.output? name with
  | some selection => evaluation.read selection
  | .none => .error (.outputMissing name)

/-- Adds the comparison of a named output in two evaluations. -/
def compareOutput (reference candidate : Graph) (expected actual : Evaluation)
    (deviation : Deviation) : Except Error Deviation := do
  let expected ← readOutput reference expected deviation.name
  let actual ← readOutput candidate actual deviation.name
  if expected.length ≠ actual.length then
    throw (.extent (.namedOutput expected.length deviation.name) actual.length)
  (expected.zip actual).foldlM compareValue deviation

/-- Adds the comparison of all named outputs for one input. -/
def compareRow (reference candidate : Graph) (deviations : List Deviation)
    (row : List Float) : Except Error (List Deviation) := do
  let expected ← reference.evaluate row
  let actual ← candidate.evaluate row
  deviations.mapM (compareOutput reference candidate expected actual)

/-- Whether an output strays by no more than a tolerance. -/
def isWithin (deviation : Deviation) (tolerance : Float) : Bool :=
  decide (deviation.maxAbsError ≤ tolerance) && deviation.mismatches == 0

/-- The line of a report for one output. -/
def display (deviation : Deviation) : String :=
  let name := deviation.name
  let error := Layout.exponential.write deviation.maxAbsError
  let mismatches := deviation.mismatches
  s!"  {name}: max abs error {error}, boolean mismatches {mismatches}\n"

end Deviation

namespace EquivalenceReport

/-- Whether no output strays by more than the tolerance. -/
def isEquivalent (report : EquivalenceReport) : Bool :=
  report.deviations.all (fun deviation => deviation.isWithin report.tolerance)

/-- The deviation of a named output. -/
def output? (report : EquivalenceReport) (name : String) : Option Deviation :=
  report.deviations.find? (fun deviation => deviation.name == name)

/-- The report in words. -/
def display (report : EquivalenceReport) : String :=
  let inputs := report.inputsChecked
  let tolerance := Layout.plain.write report.tolerance
  let verdict := if report.isEquivalent then "equivalent" else "NOT equivalent"
  s!"{inputs} inputs, tolerance {tolerance}: {verdict}\n" ++
    String.join (report.deviations.map Deviation.display)

end EquivalenceReport

/-- Compares a graph with another one on rows of inputs. -/
def Graph.compare (reference candidate : Graph) (rows : List (List Float))
    (settings : Settings) : Except Error EquivalenceReport := do
  let start := reference.outputs.map (fun output => Deviation.none output.1)
  let deviations ← rows.foldlM (Deviation.compareRow reference candidate) start
  return ⟨rows.length, settings.equivalenceTolerance, deviations⟩

end ForestGraph
