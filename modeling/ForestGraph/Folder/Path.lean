/-!
# Paths

A path is a text whose parts are set apart by slashes.  Taken apart, it tells
where to start, which parts to follow from there, and whether a slash ends it.
Slashes that repeat count once.  The extension of a path is that of the last
name in it.
-/

namespace ForestGraph.Folder

/-- A path, taken apart. -/
structure Path where
  /-- Whether it starts at the root of the file system. -/
  isAbsolute : Bool
  /-- The texts between the slashes; none of them is empty. -/
  parts : List String
  /-- Whether it says by a last slash that it leads to a directory. -/
  endsInSlash : Bool

namespace Path

/-- The texts before, between and behind slashes; there is at least one. -/
def texts : List Char → List (List Char)
  | [] => [[]]
  | '/' :: rest => [] :: texts rest
  | char :: rest =>
      match texts rest with
      | text :: later => (char :: text) :: later
      | [] => [[char]]

/-- The path that a text spells. -/
def ofString (text : String) : Path :=
  { isAbsolute := text.toList.head? == some '/'
    parts := ((texts text.toList).filter (fun part => !part.isEmpty)).map String.ofList
    endsInSlash := text.toList.getLast? == some '/' }

/-- The last name in a path.  A dot names nothing, and two dots have no name for
what they lead to. -/
def name? (path : Path) : Option String :=
  match (path.parts.filter (fun part => part != ".")).getLast? with
  | some ".." => none
  | last => last

/-- What follows the last dot of a name, unless that dot is its first
character. -/
def extensionOf? (name : String) : Option String :=
  let (extension, rest) := name.toList.reverse.span (fun char => char != '.')
  match rest with
  | _ :: _ :: _ => some (String.ofList extension.reverse)
  | _ => none

/-- The extension of a path. -/
def extension? (path : Path) : Option String :=
  path.name?.bind extensionOf?

end Path

end ForestGraph.Folder
