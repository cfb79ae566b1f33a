/-!
# Failures

An `Error` names the cause of a failed operation together with the values that
make it concrete.  Its `category` tells callers how to react, and `message`
renders it as one line of text, the heading of the category first.

An error of a recoverable category promises that the failed operation left
everything as it was.

Indices of nodes, edges, features and elements are words of 64 bits.
-/

namespace ForestGraph

/-! ## What failures refer to -/

namespace Index

/-- The largest index, a word of 64 ones. -/
def largest : Nat := 0xffffffffffffffff

/-- An index as it is reported: the largest one, which no collection reaches, stands
for all beyond it. -/
def capped (index : Nat) : Nat :=
  min index largest

/-- The index behind an index.  Words start over behind the largest one. -/
def next (index : Nat) : Nat :=
  (index + 1) % (largest + 1)

theorem next_of_lt {index : Nat} (h : index < largest) : next index = index + 1 :=
  Nat.mod_eq_of_lt (Nat.succ_lt_succ h)

end Index

/-- The type shared by all elements of one port of a computation graph. -/
inductive ElementType where
  | real
  | boolean
  deriving DecidableEq

/-- The name used in messages. -/
def ElementType.name : ElementType → String
  | real => "real"
  | boolean => "boolean"

/-! ## Failures -/

/-- The families of causes that callers can tell apart. -/
inductive Category where
  | invalidArgument
  | invariantViolation
  | structuralMismatch
  | config
  | invalidParameter
  | dimensionMismatch
  | indexOutOfBounds
  | serialization
  | io
  | json
  | threading
  | internal
  deriving DecidableEq

namespace Category

/-- The identifier of a category. -/
def name : Category → String
  | invalidArgument => "invalid_argument"
  | invariantViolation => "invariant_violation"
  | structuralMismatch => "structural_mismatch"
  | config => "config"
  | invalidParameter => "invalid_parameter"
  | dimensionMismatch => "dimension_mismatch"
  | indexOutOfBounds => "index_out_of_bounds"
  | serialization => "serialization"
  | io => "io"
  | json => "json"
  | threading => "threading"
  | internal => "internal"

/-- All categories. -/
def all : List Category :=
  [invalidArgument, invariantViolation, structuralMismatch, config, invalidParameter,
    dimensionMismatch, indexOutOfBounds, serialization, io, json, threading, internal]

/-- The category with a given identifier. -/
def ofName? (text : String) : Option Category :=
  all.find? (fun category => category.name == text)

/-- The words that open every message of a category. -/
def heading : Category → String
  | invalidArgument => "Invalid argument"
  | invariantViolation => "Invariant violation"
  | structuralMismatch => "Structural mismatch"
  | config => "Configuration error"
  | invalidParameter => "Invalid parameter"
  | dimensionMismatch => "Dimension mismatch"
  | indexOutOfBounds => "Index out of bounds"
  | serialization => "Serialization error"
  | io => "I/O error"
  | json => "JSON error"
  | threading => "Threading error"
  | internal => "Internal error"

/-- A recoverable failure may be retried with corrected arguments. -/
def isRecoverable : Category → Bool
  | invalidArgument | dimensionMismatch | threading => true
  | _ => false

end Category

/-- The extent that an operation needed and did not find. -/
inductive Expectation where
  /-- The exact width of an input vector. -/
  | inputFeatures (count : Nat)
  /-- The least width of an input vector. -/
  | leadingFeatures (count : Nat)
  /-- The length of the other input port of a node. -/
  | inputPort (count : Nat) (port : String)
  /-- The length of a named output of a graph. -/
  | namedOutput (count : Nat) (name : String)
  /-- A selector is a single truth value. -/
  | selector
  /-- A multiplexer chooses between two elements. -/
  | multiplexed
  deriving DecidableEq

/-- The wording of an expected extent. -/
def Expectation.describe : Expectation → String
  | inputFeatures count => s!"{count} input features"
  | leadingFeatures count => s!"at least {count} input features"
  | inputPort count port => s!"{count} elements in {port}"
  | namedOutput count name => s!"{count} elements in output '{name}'"
  | selector => "1 selector element"
  | multiplexed => "2 multiplexed elements for a boolean key"

/-- The causes of failure, by the part of the library that reports them. -/
inductive Error where
  /-- A cause stated by the caller, already worded. -/
  | reported (category : Category) (text : String)
  /-- An index that does not name an entry of a collection. -/
  | outOfBounds (index length : Nat)
  /-- An extent that differs from the one an operation needs. -/
  | extent (expected : Expectation) (actual : Nat)
  /-- The maximum of an empty list. -/
  | maxOfEmptyList
  /-- A pushed value below the last one. -/
  | decreasingPush (value last : UInt64)
  /-- Reading through a cursor that has passed the last entry. -/
  | readPastEnd
  /-- Moving a cursor that has passed the last entry. -/
  | advancePastEnd
  /-- A split names an edge other than 0 and 1. -/
  | noSuchEdge (position node : Nat)
  /-- A split names an edge that no longer ends at a leaf. -/
  | edgeAlreadySplit (position node : Nat)
  /-- A root that is no node. -/
  | rootOutside (root count : Nat)
  /-- A node listed twice among the roots. -/
  | repeatedRoot (root : Nat)
  /-- A node whose edges are not numbered after those of its predecessors. -/
  | misnumberedEdges (node found expected : Nat)
  /-- An edge to a node that does not exist. -/
  | childOutside (parent child count : Nat)
  /-- An edge that does not lead to a later node. -/
  | childNotLater (parent child : Nat)
  /-- An edge to a root. -/
  | childIsRoot (parent child : Nat)
  /-- A second edge to the same node. -/
  | secondParent (child : Nat)
  /-- A node that no root reaches. -/
  | orphan (node : Nat)
  /-- A walk that used up its steps. -/
  | endlessTree (tree : Nat)
  /-- A taken edge whose number exceeds the edges of the forest. -/
  | edgeOutside (tree edge count : Nat)
  /-- A truth value where a number is needed. -/
  | expectedReal
  /-- A number where a truth value is needed. -/
  | expectedBoolean
  /-- A reference to a port that its node does not declare. -/
  | noSuchPort (node port : Nat)
  /-- An element whose type is not the one the reading port declares. -/
  | elementType (node port : String) (expected : ElementType) (producer : Nat)
      (output : String) (found : ElementType)
  /-- A node whose values do not have the declared shape. -/
  | undeclaredShape (node : String) (index : Nat)
  /-- An element read before its node was evaluated. -/
  | notComputed (node port index : Nat)
  /-- A named output that the evaluated graph does not have. -/
  | noSuchOutput (name : String)
  /-- A named output that one of two compared graphs does not have. -/
  | outputMissing (name : String)
  /-- A named output whose elements differ in type between compared graphs. -/
  | outputTypeChanged (name : String)
  /-- An element of a graph whose new place is not known yet. -/
  | notRebuilt (node port : Nat)
  /-- A root of an expanded forest that is no node. -/
  | treeRootOutside (root tree count : Nat)
  /-- An edge number of an expanded forest that no node carries. -/
  | unownedEdge (edge : Nat)
  /-- A setting outside its range. -/
  | setting (parameter value reason : String)
  /-- Settings refused by the builder, with every complaint. -/
  | draftRefused (complaints : List String)
  /-- A variable whose text is no value of its setting. -/
  | overrideText (name : String)
  /-- A settings file that cannot be read, with the system's reason. -/
  | unreadableFile (reason : String)
  /-- A settings file that cannot be written, with the system's reason. -/
  | unwritableFile (reason : String)
  /-- A settings file of another format. -/
  | unsupportedFormat
  /-- A settings file that is no document of its format. -/
  | unparsedSettings (format reason : String)
  /-- Settings that have no text in a format. -/
  | unprintedSettings (format reason : String)
  /-- A JSON text that does not describe what is read from it, or a structure
  that cannot be printed as JSON. -/
  | malformedJson (reason : String)
  /-- A TOML text that is no document. -/
  | malformedToml (reason : String)
  deriving DecidableEq

namespace Error

/-- The family a cause belongs to. -/
def category : Error → Category
  | reported category _ => category
  | outOfBounds .. => .indexOutOfBounds
  | extent .. => .dimensionMismatch
  | maxOfEmptyList | decreasingPush .. | readPastEnd | advancePastEnd => .invalidArgument
  | noSuchEdge .. | edgeAlreadySplit .. | noSuchOutput .. => .invalidArgument
  | rootOutside .. | repeatedRoot .. | misnumberedEdges .. | orphan .. => .structuralMismatch
  | childOutside .. | childNotLater .. | childIsRoot .. | secondParent .. => .invariantViolation
  | endlessTree .. | edgeOutside .. => .invariantViolation
  | expectedReal | expectedBoolean | noSuchPort .. | elementType .. => .structuralMismatch
  | undeclaredShape .. | notComputed .. | notRebuilt .. => .internal
  | outputMissing .. | outputTypeChanged .. => .structuralMismatch
  | treeRootOutside .. | unownedEdge .. => .structuralMismatch
  | setting .. => .invalidParameter
  | draftRefused .. | overrideText .. | unreadableFile .. | unwritableFile .. => .config
  | unsupportedFormat | unparsedSettings .. | unprintedSettings .. => .config
  | malformedJson .. => .json
  | malformedToml .. => .serialization

/-- The wording of a cause, without the heading of its category. -/
def detail : Error → String
  | reported _ text => text
  | outOfBounds index length => s!"index {index}, length {length}"
  | extent expected actual => "expected " ++ expected.describe ++ s!", got {actual}"
  | maxOfEmptyList => "max() called on an empty compressed integer list"
  | decreasingPush value last =>
      s!"compressed integer list requires non-decreasing values: {value} pushed after {last}"
  | readPastEnd => "get() called on an exhausted compressed integer list iterator"
  | advancePastEnd => "advance() called on an exhausted compressed integer list iterator"
  | noSuchEdge position node => s!"edge position {position} of node {node} does not exist"
  | edgeAlreadySplit position node =>
      s!"edge {position} of node {node} has already been split"
  | rootOutside root count =>
      s!"root index {root} is outside the {count} interior nodes"
  | repeatedRoot root => s!"node {root} is the root of more than one tree"
  | misnumberedEdges node found expected =>
      s!"node {node} has first edge index {found}, expected {expected}"
  | childOutside parent child count =>
      s!"node {parent} points at node {child} outside the {count} interior nodes"
  | childNotLater parent child =>
      s!"node {parent} points at node {child}, children must have greater indices"
  | childIsRoot parent child => s!"node {parent} points at root node {child}"
  | secondParent child => s!"node {child} has more than one parent"
  | orphan node => s!"node {node} is neither a root nor the target of an edge"
  | endlessTree tree => s!"tree {tree} does not reach a leaf"
  | edgeOutside tree edge count =>
      s!"tree {tree} takes edge {edge} outside the {count} edges of the forest"
  | expectedReal => "expected a real value, found a boolean"
  | expectedBoolean => "expected a boolean value, found a real"
  | noSuchPort node port => s!"#{node} has no output port {port}"
  | elementType node port expected producer output found =>
      s!"{node} input '{port}' expects " ++ expected.name ++
        s!" elements, #{producer}:{output} produces " ++ found.name
  | undeclaredShape node index =>
      s!"{node} node #{index} produced outputs that do not match its declaration"
  | notComputed node port index =>
      s!"element #{node}:{port}[{index}] read before it was computed"
  | noSuchOutput name | outputMissing name => s!"model has no output '{name}'"
  | outputTypeChanged name => s!"output '{name}' changed element type"
  | notRebuilt node port => s!"output #{node}:{port} has not been transformed yet"
  | treeRootOutside root tree count =>
      s!"root index {root} of tree {tree} is outside the {count} interior nodes"
  | unownedEdge edge => s!"edge {edge} is not owned by any node"
  | setting parameter value reason => s!"{parameter} = {value}, {reason}"
  | draftRefused complaints =>
      "Configuration validation failed: " ++ ", ".intercalate complaints
  | overrideText name => s!"Invalid {name}"
  | unreadableFile reason => s!"Failed to read config file: {reason}"
  | unwritableFile reason => s!"Failed to write config file: {reason}"
  | unsupportedFormat => "Unsupported config file format. Use .json or .toml"
  | unparsedSettings format reason => s!"Failed to parse {format} config: {reason}"
  | unprintedSettings format reason => s!"Failed to serialize to {format}: {reason}"
  | malformedJson reason | malformedToml reason => reason

/-- A mismatch of two extents that the caller words. -/
def mismatch (expected actual : String) : Error :=
  reported .dimensionMismatch ("expected " ++ expected ++ ", got " ++ actual)

/-- One line for the reader: the heading of the category, then the cause. -/
def message (error : Error) : String :=
  error.category.heading ++ ": " ++ error.detail

/-- Whether the failed operation may be retried with corrected arguments. -/
def isRecoverable (error : Error) : Bool :=
  error.category.isRecoverable

end Error

end ForestGraph
