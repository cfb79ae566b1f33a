/-!
# Verbosity

How much a program that uses the library wants to hear, from fatal errors only
to every detail.
-/

namespace ForestGraph

/-- The levels of verbosity, from the quietest to the most talkative. -/
inductive Verbosity where
  | fatal
  | warning
  | info
  | debug
  deriving DecidableEq

namespace Verbosity

/-- The number of a level; a larger one says more. -/
def number : Verbosity → Int
  | fatal => -1
  | warning => 0
  | info => 1
  | debug => 2

/-- The order of levels is that of their numbers. -/
def compare (left right : Verbosity) : Ordering :=
  Ord.compare left.number right.number

/-- The word shown to readers. -/
def word : Verbosity → String
  | fatal => "fatal"
  | warning => "warning"
  | info => "info"
  | debug => "debug"

/-- The name used in settings files. -/
def name : Verbosity → String
  | fatal => "Fatal"
  | warning => "Warning"
  | info => "Info"
  | debug => "Debug"

/-- The least severe kind of log line that a level lets through. -/
def filter : Verbosity → String
  | fatal => "ERROR"
  | warning => "WARN"
  | info => "INFO"
  | debug => "DEBUG"

/-- All levels, in order. -/
def all : List Verbosity :=
  [fatal, warning, info, debug]

/-- The level with a given name. -/
def ofName? (text : String) : Option Verbosity :=
  all.find? (fun level => level.name == text)

/-- The words that stand for a level, numbers included. -/
def aliases : Verbosity → List String
  | fatal => ["fatal", "error", "-1"]
  | warning => ["warning", "warn", "0"]
  | info => ["info", "1"]
  | debug => ["debug", "2"]

/-- Reads a level from a word, ASCII letters in either case. -/
def parse? (text : String) : Option Verbosity :=
  let folded := text.map Char.toLower
  all.find? (fun level => level.aliases.contains folded)

theorem ofName?_name (level : Verbosity) : ofName? level.name = some level := by
  cases level <;> decide +kernel

end Verbosity

end ForestGraph
