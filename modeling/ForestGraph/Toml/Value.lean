/-!
# TOML values and tables

A TOML document is a table whose entries are given in any order, by single
lines, by sections with headers and by keys with dots.  How a table came about
decides what may be added to it later:

* a table between braces is complete;
* a table with a header is complete apart from its subtables;
* a table that is only named on the way to a header may still get a header;
* a table that is only named on the way to a dotted key may only get further
  dotted keys and subtables.

`Entries.insert` and the two `Entries.open` functions add to a document, and
fail where these rules forbid it.
-/

namespace ForestGraph

/-- How a table came about. -/
inductive TomlOrigin where
  | braces
  | header
  | onPath
  | dotted
  deriving DecidableEq

/-- The values of a TOML document.  Dates and times are not told apart. -/
inductive Toml where
  | string (text : String)
  | integer (number : Int)
  | real (number : Float)
  | boolean (truth : Bool)
  | moment
  | array (items : List Toml)
  /-- The tables under a repeated header between double brackets. -/
  | sections (tables : List Toml)
  | table (origin : TomlOrigin) (entries : List (String × Toml))

namespace Toml

/-- The largest integer of a document, a signed word of 64 bits. -/
def largestInteger : Nat := 0x7fffffffffffffff

/-- The entries of a table, in the order of their appearance. -/
abbrev Entries := List (String × Toml)

namespace Entries

/-- The value of a key. -/
def find? (entries : Entries) (key : String) : Option Toml :=
  List.lookup key entries

/-- Changes the value of a key, or adds one. -/
def alter (key : String) (change : Option Toml → Option Toml) : Entries → Option Entries
  | [] => (change none).map fun value => [(key, value)]
  | (present, value) :: later =>
      if present = key then (change (some value)).map fun value => (present, value) :: later
      else (alter key change later).map fun later => (present, value) :: later

/-- Whether a path may enter a table of some origin. -/
def mayEnter (dottedPath : Bool) : TomlOrigin → Bool
  | .braces => false
  | .header => !dottedPath
  | .onPath | .dotted => true

/-- Changes the table at the end of a path, which may be a path of a header or
of a dotted key.  Tables on the way are made as needed, and of repeated sections
the last one is entered. -/
def within (dottedPath : Bool) (path : List String)
    (change : TomlOrigin → Entries → Option Entries) (origin : TomlOrigin)
    (entries : Entries) : Option Entries :=
  match path with
  | [] => change origin entries
  | key :: path =>
      let fresh := if dottedPath then TomlOrigin.dotted else TomlOrigin.onPath
      alter key (fun
        | none => (within dottedPath path change fresh []).map (table fresh)
        | some (table origin entries) =>
            if mayEnter dottedPath origin then
              (within dottedPath path change origin entries).map (table origin)
            else none
        | some (sections tables) =>
            match tables.getLast? with
            | some (table origin entries) =>
                (within dottedPath path change origin entries).map fun entries =>
                  sections (tables.dropLast ++ [table origin entries])
            | _ => none
        | some _ => none) entries

/-- Adds a value under a key that is not there yet.  A dotted key only adds to
a table that has come about by dotted keys, a plain key only to any other. -/
def insertHere (dottedPath : Bool) (key : String) (value : Toml) (origin : TomlOrigin)
    (entries : Entries) : Option Entries :=
  if dottedPath != (origin == .dotted) then none
  else alter key (fun | none => some value | some _ => none) entries

/-- Adds a value under a key with dots. -/
def insert (path : List String) (key : String) (value : Toml) (origin : TomlOrigin)
    (entries : Entries) : Option Entries :=
  within true path (insertHere (!path.isEmpty) key value) origin entries

/-- Opens the table of a header.  The table becomes the last entry, also when it
has been named on the way to another header before. -/
def openTable (path : List String) (key : String) (entries : Entries) : Option Entries :=
  within false path
    (fun _ entries =>
      match entries.find? key with
      | none => some (entries ++ [(key, table .header [])])
      | some (table .onPath inner) =>
          some (entries.filter (fun entry => entry.1 != key) ++ [(key, table .header inner)])
      | some _ => none)
    .header entries

/-- Opens one more of the tables of a repeated header. -/
def openSection (path : List String) (key : String) (entries : Entries) : Option Entries :=
  within false path
    (fun _ => alter key (fun
      | none => some (sections [table .header []])
      | some (sections tables) => some (sections (tables ++ [table .header []]))
      | some _ => none))
    .header entries

end Entries

end Toml

end ForestGraph
