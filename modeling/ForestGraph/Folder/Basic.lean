import ForestGraph.Folder.Path

/-!
# Files in a folder

A `Folder` is what the library sees of a file system: directories, and files
with their bytes, each at its place.  A path is followed part by part, and what
is left for the next part must be a directory each time.  Reading and writing
fail with the reasons that the system gives.
-/

namespace ForestGraph

namespace Folder

/-- Why the system cannot open a file. -/
inductive Failure where
  | notFound
  | notDirectory
  | isDirectory
  | nameTooLong
  | nulInName
  deriving DecidableEq

/-- The words of the system. -/
def Failure.describe : Failure → String
  | notFound => "No such file or directory (os error 2)"
  | notDirectory => "Not a directory (os error 20)"
  | isDirectory => "Is a directory (os error 21)"
  | nameTooLong => "File name too long (os error 36)"
  | nulInName => "file name contained an unexpected NUL byte"

/-- A directory from which places are told: the one some levels above the
folder, which is the folder itself at level zero, or the root. -/
inductive Base where
  | above (levels : Nat)
  | root
  deriving DecidableEq

/-- A place for a file or a directory: a base and the names on the way down from
it, the last one first. -/
structure Place where
  base : Base
  names : List String
  deriving DecidableEq

namespace Place

/-- The folder itself. -/
def folder : Place := ⟨.above 0, []⟩

/-- The place of a name in a directory. -/
def child (place : Place) (name : String) : Place :=
  { place with names := name :: place.names }

/-- The directory of a place.  The root is its own. -/
def parent : Place → Place
  | ⟨base, _ :: names⟩ => ⟨base, names⟩
  | ⟨.above levels, []⟩ => ⟨.above (levels + 1), []⟩
  | ⟨.root, []⟩ => ⟨.root, []⟩

end Place

end Folder

/-- Directories, and files with their bytes. -/
structure Folder where
  directories : List Folder.Place
  files : List (Folder.Place × List UInt8)

namespace Folder

/-- A folder with one directory in it. -/
def withDirectory (name : String) : Folder :=
  ⟨[Place.folder.child name], []⟩

/-- Whether there is a directory at a place. -/
def isDirectory (folder : Folder) (place : Place) : Bool :=
  place.names.isEmpty || folder.directories.contains place

/-- The bytes of the file at a place. -/
def find? (folder : Folder) (place : Place) : Option (List UInt8) :=
  folder.files.lookup place

/-! ## Following a path -/

/-- The largest number of bytes in a name. -/
def largestName : Nat := 255

/-- The largest number of bytes in a path. -/
def largestPath : Nat := 4095

/-- Follows one part of a path, which must start at a directory. -/
def follow (folder : Folder) (place : Place) (part : String) : Except Failure Place :=
  if !folder.isDirectory place then
    .error (if (folder.find? place).isSome then .notDirectory else .notFound)
  else if part = "." then .ok place
  else if part = ".." then .ok place.parent
  else if largestName < part.utf8ByteSize then .error .nameTooLong
  else .ok (place.child part)

/-- Follows the parts of a path, which may lead to a place with nothing there. -/
def locate (folder : Folder) (isAbsolute : Bool) (parts : List String) : Except Failure Place :=
  parts.foldlM folder.follow (if isAbsolute then ⟨.root, []⟩ else Place.folder)

/-- Takes a path apart, if it may be asked for. -/
def takeApart (text : String) : Except Failure Path :=
  if text.toList.contains '\x00' then .error .nulInName
  else if largestPath < text.utf8ByteSize then .error .nameTooLong
  else .ok (Path.ofString text)

/-- The bytes of a file, or why they cannot be read. -/
def read (folder : Folder) (text : String) : Except Failure (List UInt8) := do
  let path ← takeApart text
  let place ← folder.locate path.isAbsolute path.parts
  if folder.isDirectory place then throw .isDirectory
  match folder.find? place with
  | none => throw .notFound
  | some bytes => if path.endsInSlash then throw .notDirectory else return bytes

/-- The folder with a file of given bytes, or why it cannot be written.  A path
with a slash at its end is taken for its directory, whether it leads anywhere or
not. -/
def write (folder : Folder) (text : String) (bytes : List UInt8) : Except Failure Folder := do
  let path ← takeApart text
  let parts := if path.endsInSlash then path.parts.dropLast ++ ["."] else path.parts
  let place ← folder.locate path.isAbsolute parts
  if folder.isDirectory place then throw .isDirectory
  return { folder with files := (place, bytes) :: folder.files }

end Folder

end ForestGraph
