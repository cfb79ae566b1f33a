import ForestGraph.Error
import ForestGraph.Verbosity
import ForestGraph.Number.Arithmetic
import ForestGraph.Number.Layout
import ForestGraph.Number.Literal
import ForestGraph.DeltaList.Cursor
import ForestGraph.Forest.Validity
import ForestGraph.Forest.Evaluation
import ForestGraph.Forest.Text
import ForestGraph.Graph.Rebuild
import ForestGraph.Settings.Overrides
import ForestGraph.Expansion.Equivalence
import ForestGraph.Forest.Document
import ForestGraph.Settings.File
import ForestGraph.Toml.Reserved
import ForestGraph.Proofs.Reading
import ForestGraph.Proofs.Typing
import ForestGraph.Proofs.Succession
import ForestGraph.Proofs.Growth
import ForestGraph.Proofs.Features
import ForestGraph.Proofs.Parts
import ForestGraph.Proofs.Walks
import ForestGraph.Proofs.Shape
import ForestGraph.Proofs.Subtrees
import ForestGraph.Proofs.WiredEdges
import ForestGraph.Proofs.ForestExpansion
import ForestGraph.Proofs.Descents
import ForestGraph.Proofs.Copying
import ForestGraph.Proofs.BuiltGraphs
import ForestGraph.Proofs.Simulation
import ForestGraph.Proofs.Passes
import ForestGraph.Proofs.Preservation
import ForestGraph.Proofs.ForestGraphs
import ForestGraph.Proofs.UncheckedForests
import ForestGraph.Proofs.Refusals
import ForestGraph.Proofs.GatedEvaluations
import ForestGraph.Proofs.UncheckedExpansions
import ForestGraph.Proofs.WholeCopies
import ForestGraph.Proofs.PassLimits
import ForestGraph.Proofs.NumberOrder
import ForestGraph.Proofs.Deviations
import ForestGraph.Proofs.FalseAlarms
import ForestGraph.Proofs.RootPaths
import ForestGraph.Proofs.Splits
import ForestGraph.Proofs.LocalSplits
import ForestGraph.Proofs.Entries
import ForestGraph.Proofs.Recordings
import ForestGraph.Proofs.Failures
import ForestGraph.Proofs.Procedures
import ForestGraph.Proofs.AtomicOperations
import ForestGraph.Proofs.ForestTexts
import ForestGraph.Proofs.CursorSessions
import ForestGraph.Proofs.LeadingFeatures
import ForestGraph.Proofs.Regrowth
import ForestGraph.Proofs.EmittedNodes
import ForestGraph.Proofs.CodeSizes
import ForestGraph.Proofs.RawWalks
import ForestGraph.Proofs.ActiveEdges
import ForestGraph.Proofs.EmittedKinds
import ForestGraph.Proofs.NodeCounts
import ForestGraph.Proofs.CodeWords
import ForestGraph.Proofs.SettingTexts
import ForestGraph.Proofs.OverrideEffects
import ForestGraph.Proofs.TomlTexts
import ForestGraph.Proofs.SettingsFiles
