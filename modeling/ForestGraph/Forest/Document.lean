import ForestGraph.Forest.Validity
import ForestGraph.Json.Codec

/-!
# Forests as JSON

A forest is written as a record of its nodes, its roots and its bias.  Which
kind of rule and of predictor a forest holds is not part of the text; whoever
reads it has to know.  Texts are printed and parsed by a codec.
-/

namespace ForestGraph

/-- The kinds of rules. -/
inductive RuleKind where
  | threshold
  | linear
  deriving DecidableEq

/-- The kinds of predictors. -/
inductive PredictorKind where
  | constant
  | linear
  deriving DecidableEq

/-- The kind of all rules and the kind of all predictors of a forest. -/
structure ForestKind where
  rule : RuleKind
  predictor : PredictorKind
  deriving DecidableEq

open Json

/-! ## Writing -/

/-- The fields of an affine function. -/
def Affine.fields (function : Affine) : List (String × Document) :=
  [("weights", .array (function.weights.map Document.real)), ("bias", .real function.bias)]

/-- A rule as a record. -/
def Rule.document : Rule → Document
  | threshold index bound => .object [("feature", .index index), ("threshold", .real bound)]
  | linear function => .object function.fields

/-- A predictor as a record. -/
def Predictor.document : Predictor → Document
  | constant value => .object [("value", .real value)]
  | linear function => .object function.fields

/-- The end of an edge. -/
def Target.document : Target → Document
  | leaf => .string "Leaf"
  | interior node => .object [("Interior", .index node)]

/-- An edge as a record. -/
def Edge.document (edge : Edge) : Document :=
  .object [("predictor", edge.predictor.document), ("target", edge.target.document)]

/-- A node as a record. -/
def Interior.document (node : Interior) : Document :=
  .object
    [("split_rule", node.rule.document),
     ("outgoing_edges", .array (node.edges.map Edge.document)),
     ("first_edge_index", .index node.firstEdge)]

/-- A forest as a record. -/
def Forest.document (forest : Forest) : Document :=
  .object
    [("interior_nodes", .array (forest.nodes.toList.map Interior.document)),
     ("roots", .array (forest.roots.map Document.index)),
     ("bias", .real forest.bias)]

/-- The text of a forest, which need not be well-formed. -/
def Forest.toJson (codec : Json.Codec) (forest : Forest) : Except Error String :=
  match codec.write? forest.document with
  | some text => .ok text
  | none => .error (.malformedJson "the forest cannot be printed")

/-! ## Reading -/

/-- Reads an affine function. -/
def Affine.ofJson? (value : Json) : Option Affine := do
  match ← value.fullRecord? ["weights", "bias"] with
  | [weights, bias] => return ⟨← weights.list? real?, ← bias.real?⟩
  | _ => none

/-- Reads a rule of a kind. -/
def Rule.ofJson? (kind : RuleKind) (value : Json) : Option Rule := do
  match kind with
  | .threshold =>
      match ← value.fullRecord? ["feature", "threshold"] with
      | [index, bound] => return threshold (← index.index?) (← bound.real?)
      | _ => none
  | .linear => return linear (← Affine.ofJson? value)

/-- Reads a predictor of a kind. -/
def Predictor.ofJson? (kind : PredictorKind) (value : Json) : Option Predictor := do
  match kind with
  | .constant =>
      match ← value.fullRecord? ["value"] with
      | [literal] => return constant (← literal.real?)
      | _ => none
  | .linear => return linear (← Affine.ofJson? value)

/-- Reads the end of an edge. -/
def Target.ofJson? : Json → Option Target
  | .string (some "Leaf") => some leaf
  | .object [(some "Leaf", .null)] => some leaf
  | .object [(some "Interior", value)] => value.index?.map interior
  | _ => none

/-- Reads an edge. -/
def Edge.ofJson? (kind : ForestKind) (value : Json) : Option Edge := do
  match ← value.fullRecord? ["predictor", "target"] with
  | [predictor, target] =>
      return ⟨← Predictor.ofJson? kind.predictor predictor, ← Target.ofJson? target⟩
  | _ => none

/-- Reads a node. -/
def Interior.ofJson? (kind : ForestKind) (value : Json) : Option Interior := do
  match ← value.fullRecord? ["split_rule", "outgoing_edges", "first_edge_index"] with
  | [rule, edges, firstEdge] =>
      match ← edges.list? (Edge.ofJson? kind) with
      | [onFalse, onTrue] =>
          return ⟨← Rule.ofJson? kind.rule rule, onFalse, onTrue, ← firstEdge.index?⟩
      | _ => none
  | _ => none

/-- Reads a forest, well-formed or not. -/
def Forest.ofJson? (kind : ForestKind) (value : Json) : Option Forest := do
  match ← value.fullRecord? ["interior_nodes", "roots", "bias"] with
  | [nodes, roots, bias] =>
      let nodes ← nodes.list? (Interior.ofJson? kind)
      return ⟨nodes.toArray, ← roots.list? index?, ← bias.real?⟩
  | _ => none

/-- The forest that a text describes, well-formed or not. -/
def Forest.parse (codec : Json.Codec) (kind : ForestKind) (text : String) :
    Except Error Forest :=
  match (codec.parse? text).bind (Forest.ofJson? kind) with
  | some forest => .ok forest
  | none => .error (.malformedJson "the text does not describe a forest")

/-- The well-formed forest that a text describes. -/
def Forest.fromJson (codec : Json.Codec) (kind : ForestKind) (text : String) :
    Except Error Forest := do
  let forest ← Forest.parse codec kind text
  forest.validate
  return forest

end ForestGraph
