import ForestGraph.Toml.Reader

/-!
# The reserved key of TOML moments

A reader that does not know what a document is about takes a table whose first
key is reserved for a moment.  The value of that key is then the text of the
moment, and the other entries of the table do not matter.  Behind any other key
the reserved one is a key like any other.
-/

namespace ForestGraph.Toml

/-- The key that stands first in a table that stands for a moment. -/
def reservedKey : String := "$__toml_private_datetime"

/-- Whether a value is the text of a moment. -/
def isMomentText : Toml → Bool
  | string text => isMoment text.toList
  | _ => false

/-- The value that stands for a moment in a table with the reserved key. -/
def Entries.reserved? : Entries → Option Toml
  | (key, value) :: _ => if key = reservedKey then some value else none
  | [] => none

/-- Whether every table that stands for a moment has the text of one. -/
def isProper : Toml → Bool
  | array items => itemsProper items
  | sections tables => itemsProper tables
  | table _ entries =>
      match Entries.reserved? entries with
      | some value => value.isMomentText
      | none => entriesProper entries
  | _ => true
where
  /-- Whether all of a list of values are proper. -/
  itemsProper : List Toml → Bool
    | [] => true
    | item :: items => item.isProper && itemsProper items
  /-- Whether all of a list of entries have proper values. -/
  entriesProper : List (String × Toml) → Bool
    | [] => true
    | (_, value) :: entries => value.isProper && entriesProper entries

/-- The entries of a document about anything, which is a table itself. -/
def parseAny? (text : String) : Option Entries :=
  (parse? text).filter fun entries => (table .header entries).isProper

end ForestGraph.Toml
