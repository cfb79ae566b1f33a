import ForestGraph.Folder.Basic
import ForestGraph.Json.Writer
import ForestGraph.Settings.Document
import ForestGraph.Toml.Writer

/-!
# Settings files

Settings are saved to and loaded from files, in the format that the extension of
the path tells.  Loading reads the file before it looks at the extension, and
saving writes nothing unless the settings have a text.  Each format has a codec.
-/

namespace ForestGraph.Settings

/-- The name of a settings file unless another is given. -/
def fileName : String := "forest_lower.toml"

/-- The formats of settings files. -/
inductive FileFormat where
  | json
  | toml
  deriving DecidableEq

/-- The format of the file at a path. -/
def FileFormat.ofPath? (path : String) : Option FileFormat :=
  match (Folder.Path.ofString path).extension? with
  | some "json" => some json
  | some "toml" => some toml
  | _ => none

/-- The text in a file, which must be valid UTF-8. -/
def readText (folder : Folder) (path : String) : Except Error String :=
  match folder.read path with
  | .error failure => .error (.unreadableFile failure.describe)
  | .ok bytes =>
      match String.fromUTF8? ⟨bytes.toArray⟩ with
      | some text => .ok text
      | none => .error (.unreadableFile "stream did not contain valid UTF-8")

/-- A codec for each format. -/
structure Codecs where
  json : Json.Codec
  toml : Toml.Codec

/-- The codecs of this library. -/
def Codecs.standard : Codecs where
  json := .standard
  toml := .standard

/-- The valid settings that a file describes. -/
def load (codecs : Codecs) (folder : Folder) (path : String) : Except Error Settings := do
  let text ← readText folder path
  let settings ← match FileFormat.ofPath? path with
    | some .json =>
        match (codecs.json.parse? text).bind ofJson? with
        | some settings => pure settings
        | none => throw (.unparsedSettings "JSON" "the text does not describe settings")
    | some .toml =>
        match (codecs.toml.parse? text).bind ofToml? with
        | some settings => pure settings
        | none => throw (.unparsedSettings "TOML" "the text does not describe settings")
    | none => throw .unsupportedFormat
  settings.validate
  return settings

/-- The text of settings in the format that a path tells. -/
def textFor (codecs : Codecs) (settings : Settings) (path : String) : Except Error String :=
  match FileFormat.ofPath? path with
  | some .json =>
      match codecs.json.write? settings.document with
      | some text => .ok text
      | none => .error (.unprintedSettings "JSON" "the settings cannot be printed")
  | some .toml =>
      match codecs.toml.write? settings.table with
      | some text => .ok text
      | none => .error (.unprintedSettings "TOML" "the settings cannot be printed")
  | none => .error .unsupportedFormat

/-- The folder with the settings saved to a file. -/
def save (codecs : Codecs) (settings : Settings) (folder : Folder) (path : String) :
    Except Error Folder := do
  let text ← settings.textFor codecs path
  match folder.write path text.toUTF8.toList with
  | .ok folder => return folder
  | .error failure => throw (.unwritableFile failure.describe)

end ForestGraph.Settings
