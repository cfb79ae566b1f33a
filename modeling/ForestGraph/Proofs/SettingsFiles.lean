import ForestGraph.Proofs.JsonCodec
import ForestGraph.Proofs.JsonRecords
import ForestGraph.Proofs.Procedures
import ForestGraph.Proofs.Reading
import ForestGraph.Proofs.SettingTexts
import ForestGraph.Proofs.TomlTexts
import ForestGraph.Settings.File

/-!
# Settings files

With codecs that read back what they print, valid settings are read back from the file to
which they have been saved, in either format, unless TOML has no integer for one of their
counts.  Settings that are loaded are valid, and what their file leaves out has its default
value.
-/

namespace ForestGraph

/-! ## Files -/

namespace Folder

variable {folder later : Folder} {path : String} {bytes : List UInt8}

/-- The system lets a file be written at a path. -/
def Writable (folder : Folder) (path : String) : Prop :=
  ∃ bytes later, folder.write path bytes = .ok later

/-- Following a path needs to know directories only. -/
theorem follow_of_directories_eq (h : later.directories = folder.directories) {place next : Place}
    {part : String} (hNext : folder.follow place part = .ok next) :
    later.follow place part = .ok next := by
  have hSame : later.isDirectory place = folder.isDirectory place := by
    rw [isDirectory, isDirectory, h]
  unfold follow at hNext ⊢
  rw [hSame]
  split at hNext
  · cases hNext
  · rename_i hDirectory
    rw [if_neg hDirectory]
    exact hNext

theorem locate_of_directories_eq (h : later.directories = folder.directories) {isAbsolute : Bool}
    {parts : List String} {place : Place} (hPlace : folder.locate isAbsolute parts = .ok place) :
    later.locate isAbsolute parts = .ok place := by
  unfold locate at hPlace ⊢
  generalize (if isAbsolute then ⟨.root, []⟩ else Place.folder) = start at hPlace ⊢
  induction parts generalizing start with
  | nil => exact hPlace
  | cons part parts ih =>
      rw [List.foldlM_cons, except_bind_eq_ok_iff] at hPlace ⊢
      obtain ⟨next, hNext, hRest⟩ := hPlace
      exact ⟨next, follow_of_directories_eq h hNext, ih next hRest⟩

/-- A path that ends in a dot leads to a directory. -/
theorem isDirectory_of_locate_dot {isAbsolute : Bool} {parts : List String} {place : Place}
    (h : folder.locate isAbsolute (parts ++ ["."]) = .ok place) :
    folder.isDirectory place = true := by
  rw [locate, List.foldlM_append, except_bind_eq_ok_iff] at h
  obtain ⟨last, _, hDot⟩ := h
  rw [List.foldlM_cons, except_bind_eq_ok_iff] at hDot
  obtain ⟨next, hNext, hPlace⟩ := hDot
  cases hPlace
  unfold follow at hNext
  split at hNext
  · cases hNext
  · rename_i hDirectory
    cases hNext
    simpa using hDirectory

/-- A file is written at a place that is no directory, if the path does not end in a slash. -/
theorem write_eq_ok_iff : folder.write path bytes = .ok later ↔
    ∃ parsed place, takeApart path = .ok parsed ∧ parsed.endsInSlash = false ∧
      folder.locate parsed.isAbsolute parsed.parts = .ok place ∧
      folder.isDirectory place = false ∧
      later = { folder with files := (place, bytes) :: folder.files } := by
  simp only [write, except_bind_eq_ok_iff]
  constructor
  · rintro ⟨parsed, hParsed, place, hPlace, hWrite⟩
    split at hWrite
    · cases hWrite
    · rename_i hDirectory
      cases hSlash : parsed.endsInSlash with
      | true =>
          rw [hSlash, if_pos rfl] at hPlace
          exact absurd (isDirectory_of_locate_dot hPlace) hDirectory
      | false =>
          rw [hSlash, if_neg (by decide)] at hPlace
          cases hWrite
          exact ⟨parsed, place, hParsed, hSlash, hPlace, Bool.eq_false_iff.mpr hDirectory, rfl⟩
  · rintro ⟨parsed, place, hParsed, hSlash, hPlace, hDirectory, rfl⟩
    refine ⟨parsed, hParsed, place, ?_, ?_⟩
    · rwa [hSlash, if_neg (by decide)]
    · rw [hDirectory]
      rfl

/-- What has been written can be read. -/
theorem read_of_write (h : folder.write path bytes = .ok later) : later.read path = .ok bytes := by
  obtain ⟨parsed, place, hParsed, hSlash, hPlace, hDirectory, rfl⟩ := write_eq_ok_iff.mp h
  have hLater := @locate_of_directories_eq folder
    { folder with files := (place, bytes) :: folder.files } rfl _ _ _ hPlace
  simp only [read, except_bind_eq_ok_iff]
  refine ⟨parsed, hParsed, place, hLater, ?_⟩
  have hNoDirectory : isDirectory { folder with files := (place, bytes) :: folder.files } place =
      false := hDirectory
  have hFound : find? { folder with files := (place, bytes) :: folder.files } place =
      some bytes := by
    simp [find?]
  rw [hNoDirectory, hFound, hSlash]
  rfl

/-- Whether a file can be written does not depend on what is written. -/
theorem Writable.exists_write (h : folder.Writable path) (bytes : List UInt8) :
    ∃ later, folder.write path bytes = .ok later := by
  obtain ⟨_, _, hWrite⟩ := h
  obtain ⟨parsed, place, hParsed, hSlash, hPlace, hDirectory, -⟩ := write_eq_ok_iff.mp hWrite
  exact ⟨_, write_eq_ok_iff.mpr ⟨parsed, place, hParsed, hSlash, hPlace, hDirectory, rfl⟩⟩

end Folder

namespace Settings

theorem toList_eq_data (bytes : ByteArray) : bytes.toList = bytes.data.toList := by
  have hLoop (index : Nat) (found : List UInt8) : ByteArray.toList.loop bytes index found =
      found.reverse ++ bytes.data.toList.drop index := by
    fun_induction ByteArray.toList.loop bytes index found with
    | case1 index found hInside ih =>
        have hLength : index < bytes.data.toList.length := hInside
        have hFirst : bytes.get! index = bytes.data.toList[index] := by
          rw [ByteArray.get!, Array.getElem_toList]
          exact getElem!_pos bytes.data index hInside
        rw [ih, List.drop_eq_getElem_cons hLength, hFirst, List.reverse_cons, List.append_assoc,
          List.singleton_append]
    | case2 index found hOutside =>
        have hLength : bytes.data.toList.length ≤ index := Nat.le_of_not_lt hOutside
        rw [List.drop_eq_nil_of_le hLength, List.append_nil]
  rw [ByteArray.toList, hLoop]
  rfl

/-- The text of a file is the text that was written. -/
theorem readText_of_write {folder later : Folder} {path text : String}
    (h : folder.write path text.toUTF8.toList = .ok later) : readText later path = .ok text := by
  have hBytes : (⟨text.toUTF8.toList.toArray⟩ : ByteArray) = text.toUTF8 := by
    rw [toList_eq_data, Array.toArray_toList]
  rw [readText, Folder.read_of_write h]
  simp only [hBytes]
  have hText : String.fromUTF8? text.toUTF8 = some text := dif_pos text.isValidUTF8
  rw [hText]

end Settings

/-! ## Documents -/

namespace Json

variable {depth : Nat}

theorem describes_bool (truth : Bool) : Describes bool? depth (.bool truth) truth [] :=
  ⟨.bool truth, rfl⟩

theorem describes_level (level : Verbosity) :
    Describes Verbosity.ofJson? depth (.string level.name) level [] :=
  ⟨.string level.name, level.ofName?_name⟩

end Json

namespace Settings

variable {settings : Settings} {text : String}

/-- The counts are not above a number. -/
structure CountsWithin (settings : Settings) (largest : Nat) : Prop where
  maxRefineIterations : settings.maxRefineIterations ≤ largest
  numThreads : settings.numThreads ≤ largest

theorem isFinite_of_validate (h : settings.validate = .ok ()) :
    settings.equivalenceTolerance.isFinite = true := by
  have hTolerance := isTolerance_of_validate h
  rw [isTolerance, Bool.and_eq_true] at hTolerance
  exact hTolerance.1

open Json in
theorem CountsWithin.describes {depth : Nat} (h : settings.CountsWithin Index.largest) :
    Describes ofJson? (depth + 1) settings.document settings [settings.equivalenceTolerance] := by
  have hLevel := @describes_level depth settings.verbosity
  have hPasses := @describes_index depth _ h.maxRefineIterations
  have hCheck := @describes_bool depth settings.validateForest
  have hTolerance := @describes_real depth settings.equivalenceTolerance
  have hThreads := @describes_index depth _ h.numThreads
  have hNames : names.Nodup := by decide
  have hRecord : settings.document.shown.record? names = _ := record?_shown hNames
  refine ⟨Document.isPlain_object hNames (by simp [names, hLevel.plain, hPasses.plain,
    hCheck.plain, hTolerance.plain, hThreads.plain]), ?_⟩
  rw [ofJson?, hRecord]
  show (Verbosity.ofJson? (Document.string settings.verbosity.name).shown).bind _ = _
  rw [hLevel.read_eq, whenFinite_nil, Option.bind_some]
  show (Json.index? (Document.index settings.maxRefineIterations).shown).bind _ = _
  rw [hPasses.read_eq, whenFinite_nil, Option.bind_some]
  show (Json.bool? (Document.bool settings.validateForest).shown).bind _ = _
  rw [hCheck.read_eq, whenFinite_nil, Option.bind_some]
  show (Json.real? (Document.real settings.equivalenceTolerance).shown).bind _ = _
  rw [hTolerance.read_eq]
  refine whenFinite_bind_some ?_
  show (Json.index? (Document.index settings.numThreads).shown).bind _ = _
  rw [hThreads.read_eq, whenFinite_nil]
  rfl

/-- Valid settings have no number that is not finite. -/
theorem withNulls_document (h : settings.validate = .ok ()) :
    settings.document.withNulls = settings.document := by
  simp [document, names, Json.Document.withNulls, Json.Document.withNulls.fieldsWithNulls,
    isFinite_of_validate h]

theorem forall_mem_table {holds : Toml.Scalar → Prop} :
    (∀ entry ∈ settings.table, holds entry.2) ↔
      holds (.string settings.verbosity.name) ∧ holds (.natural settings.maxRefineIterations) ∧
        holds (.boolean settings.validateForest) ∧ holds (.real settings.equivalenceTolerance) ∧
        holds (.natural settings.numThreads) := by
  simp [table, names]

theorem isPlainTable_table (h : settings.validate = .ok ()) :
    Toml.IsPlainTable settings.table := by
  have hNames : ∀ name ∈ names, Toml.IsPlainKey name := by
    unfold Toml.IsPlainKey
    decide
  have hLevel : settings.verbosity.name.toList.all Toml.isKeyChar = true := by
    cases settings.verbosity <;> decide
  exact ⟨fun entry hEntry => hNames _ (List.of_mem_zip hEntry).1, show names.Nodup by decide,
    forall_mem_table.mpr ⟨hLevel, trivial, trivial, isFinite_of_validate h, trivial⟩⟩

theorem tomlCount?_natCast (count : Nat) : tomlCount? (.integer count) = some count := by
  simp [tomlCount?]

/-- Settings are read from entries with the values of their table. -/
theorem ofToml?_of_find? {entries : Toml.Entries}
    (h : ∀ key, entries.find? key = (settings.table.lookup key).map Toml.Scalar.value) :
    ofToml? entries = some settings := by
  have hFind : names.map entries.find? =
      [some (.string settings.verbosity.name), some (.integer settings.maxRefineIterations),
        some (.boolean settings.validateForest), some (.real settings.equivalenceTolerance),
        some (.integer settings.numThreads)] := by
    rw [List.map_congr_left fun key _ => h key]
    rfl
  rw [ofToml?, hFind]
  simp [orDefault, Verbosity.ofToml?, Verbosity.ofName?_name, tomlCount?_natCast, tomlBoolean?,
    tomlReal?]

theorem forall_fits_table :
    (∀ entry ∈ settings.table, entry.2.Fits) ↔ settings.CountsWithin Toml.largestInteger := by
  rw [@forall_mem_table settings Toml.Scalar.Fits]
  constructor
  · rintro ⟨-, hPasses, -, -, hThreads⟩
    exact ⟨hPasses, hThreads⟩
  · rintro ⟨hPasses, hThreads⟩
    exact ⟨trivial, hPasses, trivial, trivial, hThreads⟩

/-! ## Formats -/

namespace FileFormat

/-- The text of settings in a format, if they have one. -/
def write? (codecs : Codecs) (settings : Settings) : FileFormat → Option String
  | json => codecs.json.write? settings.document
  | toml => codecs.toml.write? settings.table

/-- The settings that a text in a format describes. -/
def read? (codecs : Codecs) (text : String) : FileFormat → Option Settings
  | json => (codecs.json.parse? text).bind ofJson?
  | toml => (codecs.toml.parse? text).bind ofToml?

/-- The extension of the files in a format. -/
def extension : FileFormat → String
  | json => "json"
  | toml => "toml"

theorem ofPath?_eq_some_iff {path : String} {format : FileFormat} :
    ofPath? path = some format ↔
      (Folder.Path.ofString path).extension? = some format.extension := by
  unfold ofPath?
  cases format <;> split <;> simp_all [extension]

variable {codecs : Codecs}

/-- Valid settings have a text as JSON, from which they are read. -/
theorem exists_write?_json (hJson : codecs.json.Inverts) (hValid : settings.validate = .ok ())
    (hWords : settings.CountsWithin Index.largest) :
    ∃ text, json.write? codecs settings = some text ∧ json.read? codecs text = some settings := by
  have hDescribes := @CountsWithin.describes settings 126 hWords
  have hPlain := hDescribes.plain
  have hRead := hDescribes.read_eq
  rw [withNulls_document hValid] at hPlain
  rw [Json.Document.shown, withNulls_document hValid] at hRead
  obtain ⟨text, hText, hValue⟩ := hJson.reads_back settings.document hPlain
  refine ⟨text, hText, ?_⟩
  rw [read?, hValue, Option.bind_some, hRead, Json.whenFinite,
    if_pos (by simp [isFinite_of_validate hValid])]

/-- Valid settings have a text as TOML if their counts fit. -/
theorem exists_write?_toml_iff (hToml : codecs.toml.Faithful)
    (hValid : settings.validate = .ok ()) :
    (∃ text, toml.write? codecs settings = some text) ↔
      settings.CountsWithin Toml.largestInteger :=
  (hToml.writes_iff settings.table (isPlainTable_table hValid)).trans forall_fits_table

/-- Settings are read from their text in every format. -/
theorem read?_of_write? {format : FileFormat} (hJson : codecs.json.Inverts)
    (hToml : codecs.toml.Faithful) (hValid : settings.validate = .ok ())
    (hWords : settings.CountsWithin Index.largest)
    (hText : format.write? codecs settings = some text) :
    format.read? codecs text = some settings := by
  cases format with
  | json =>
      obtain ⟨other, hOther, hRead⟩ := exists_write?_json hJson hValid hWords
      obtain rfl : other = text := Option.some.inj (hOther.symm.trans hText)
      exact hRead
  | toml =>
      obtain ⟨entries, hEntries, hFind⟩ :=
        hToml.reads_back settings.table text (isPlainTable_table hValid) hText
      rw [read?, hEntries, Option.bind_some, ofToml?_of_find? hFind]

end FileFormat

variable {codecs : Codecs} {folder later : Folder} {path : String}

theorem textFor_eq_ok_iff : settings.textFor codecs path = .ok text ↔
    ∃ format, FileFormat.ofPath? path = some format ∧
      format.write? codecs settings = some text := by
  unfold textFor
  cases hFormat : FileFormat.ofPath? path with
  | none => simp
  | some format =>
      cases format with
      | json =>
          cases hText : codecs.json.write? settings.document <;> simp [FileFormat.write?, hText]
      | toml => cases hText : codecs.toml.write? settings.table <;> simp [FileFormat.write?, hText]

/-- What is saved is the text in the format of the path. -/
theorem save_eq_ok_iff : settings.save codecs folder path = .ok later ↔
    ∃ format text, FileFormat.ofPath? path = some format ∧
      format.write? codecs settings = some text ∧
      folder.write path text.toUTF8.toList = .ok later := by
  simp only [save, except_bind_eq_ok_iff, textFor_eq_ok_iff]
  constructor
  · rintro ⟨text, ⟨format, hFormat, hText⟩, hSave⟩
    cases hWrite : folder.write path text.toUTF8.toList with
    | error failure =>
        rw [hWrite] at hSave
        cases hSave
    | ok written =>
        rw [hWrite] at hSave
        cases hSave
        exact ⟨format, text, hFormat, hText, hWrite⟩
  · rintro ⟨format, text, hFormat, hText, hWrite⟩
    refine ⟨text, ⟨format, hFormat, hText⟩, ?_⟩
    rw [hWrite]
    rfl

/-- Settings that are checked last are valid, and are not changed by the check. -/
theorem checked_eq_ok_iff {found : Except Error Settings} :
    (do let settings ← found; settings.validate; pure settings) = .ok settings ↔
      found = .ok settings ∧ settings.validate = .ok () := by
  simp only [except_bind_eq_ok_iff, except_pure_eq_ok_iff]
  constructor
  · rintro ⟨_, hFound, _, hValid, rfl⟩
    exact ⟨hFound, hValid⟩
  · rintro ⟨hFound, hValid⟩
    exact ⟨settings, hFound, (), hValid, rfl⟩

/-- What is loaded is valid. -/
theorem load_eq_ok_iff : load codecs folder path = .ok settings ↔
    ∃ format text, readText folder path = .ok text ∧ FileFormat.ofPath? path = some format ∧
      format.read? codecs text = some settings ∧ settings.validate = .ok () := by
  rw [load, except_bind_eq_ok_iff, exists_comm]
  refine exists_congr fun text => ?_
  rw [exists_and_left]
  refine and_congr_right fun _ => ?_
  -- The check stands behind each branch of the formats.
  cases FileFormat.ofPath? path with
  | none => simp only [checked_eq_ok_iff, except_throw_ne_ok, false_and, reduceCtorEq,
      exists_false]
  | some format =>
      simp only [Option.some.injEq, exists_eq_left']
      cases format with
      | json =>
          cases hRead : (codecs.json.parse? text).bind ofJson? <;>
            simp only [FileFormat.read?, hRead, checked_eq_ok_iff, except_throw_ne_ok,
              except_pure_eq_ok_iff, false_and, reduceCtorEq, Option.some.injEq]
      | toml =>
          cases hRead : (codecs.toml.parse? text).bind ofToml? <;>
            simp only [FileFormat.read?, hRead, checked_eq_ok_iff, except_throw_ne_ok,
              except_pure_eq_ok_iff, false_and, reduceCtorEq, Option.some.injEq]

/-- Settings are read back from the file to which they have been saved. -/
theorem load_of_save (hJson : codecs.json.Inverts) (hToml : codecs.toml.Faithful)
    (hValid : settings.validate = .ok ()) (hWords : settings.CountsWithin Index.largest)
    (hSave : settings.save codecs folder path = .ok later) :
    load codecs later path = .ok settings := by
  obtain ⟨format, text, hFormat, hText, hWrite⟩ := save_eq_ok_iff.mp hSave
  exact load_eq_ok_iff.mpr ⟨format, text, readText_of_write hWrite, hFormat,
    FileFormat.read?_of_write? hJson hToml hValid hWords hText, hValid⟩

/-- Settings can be saved if they have a text and the system lets it be written. -/
theorem exists_save_iff {format : FileFormat} (hFormat : FileFormat.ofPath? path = some format) :
    (∃ saved, settings.save codecs folder path = .ok saved) ↔
      folder.Writable path ∧ ∃ text, format.write? codecs settings = some text := by
  constructor
  · rintro ⟨saved, hSave⟩
    obtain ⟨other, text, hOther, hText, hWrite⟩ := save_eq_ok_iff.mp hSave
    obtain rfl : other = format := Option.some.inj (hOther.symm.trans hFormat)
    exact ⟨⟨_, saved, hWrite⟩, text, hText⟩
  · rintro ⟨hWritable, text, hText⟩
    obtain ⟨saved, hWrite⟩ := hWritable.exists_write text.toUTF8.toList
    exact ⟨saved, save_eq_ok_iff.mpr ⟨format, text, hFormat, hText, hWrite⟩⟩

/-! ## Refusals -/

open Procedure

/-- Saves settings in place: the text first, then the file. -/
def saveInPlace (codecs : Codecs) (settings : Settings) (path : String) :
    Procedure Folder Unit := do
  let text ← ask fun _ => settings.textFor codecs path
  let written ← ask fun folder =>
    (folder.write path text.toUTF8.toList).mapError fun failure =>
      .unwritableFile failure.describe
  modify fun _ => written

theorem performs_save (codecs : Codecs) (settings : Settings) (path : String) :
    Performs (saveInPlace codecs settings path) fun folder =>
      (settings.save codecs folder path).map (·, ()) := by
  intro folder
  unfold saveInPlace
  rw [effect_bind, effect_ask]
  cases hText : settings.textFor codecs path with
  | error error =>
      have hSave : settings.save codecs folder path = .error error := by
        rw [save, hText]
        rfl
      simp only [hSave]
      rfl
  | ok text =>
      have hSave : settings.save codecs folder path =
          (folder.write path text.toUTF8.toList).mapError fun failure =>
            .unwritableFile failure.describe := by
        simp only [save, hText, bind, Except.bind]
        cases folder.write path text.toUTF8.toList <;> rfl
      simp only [effect_bind, effect_ask, effect_modify, hSave]
      cases folder.write path text.toUTF8.toList <;> rfl

/-- A path of no format is refused, whatever the settings and the folder are. -/
theorem save_of_noFormat (hFormat : FileFormat.ofPath? path = none) :
    settings.save codecs folder path = .error .unsupportedFormat := by
  have hText : settings.textFor codecs path = .error .unsupportedFormat := by rw [textFor, hFormat]
  rw [save, hText]
  rfl

end Settings

/-! ## What a file leaves out -/

namespace Setting

/-- The name of a setting in a document. -/
def key : Setting → String
  | verbosity => "verbosity"
  | maxRefineIterations => "max_refine_iterations"
  | validateForest => "validate_forest"
  | equivalenceTolerance => "equivalence_tolerance"
  | numThreads => "num_threads"

/-- The place of a setting in a document without names. -/
def index (setting : Setting) : Nat :=
  all.idxOf setting

end Setting

namespace Settings

/-- A document leaves out a setting: it is an object without a field of its name, a list
that ends before its place, or a table without its key. -/
inductive Omits (codecs : Codecs) (path text : String) (setting : Setting) : Prop where
  | field {fields : List (Option String × Json)} :
      (Folder.Path.ofString path).extension? = some "json" →
      codecs.json.parse? text = some (.object fields) →
      (∀ value, (some setting.key, value) ∉ fields) → Omits codecs path text setting
  | item {items : List Json} :
      (Folder.Path.ofString path).extension? = some "json" →
      codecs.json.parse? text = some (.array items) → items.length ≤ setting.index →
      Omits codecs path text setting
  | entry {entries : Toml.Entries} :
      (Folder.Path.ofString path).extension? = some "toml" →
      codecs.toml.parse? text = some entries → (∀ value, (setting.key, value) ∉ entries) →
      Omits codecs path text setting

open Procedure

theorem orDefault_missing {α β : Type} {read : α → Option β} {missing found : β}
    {value : Option α} (h : orDefault read missing value = some found) (hNone : value = none) :
    found = missing := by
  subst hNone
  exact (Option.some.inj h).symm

/-- A setting whose value is missing in a record is read as its default value. -/
theorem get_eq_default_of_ofJson? {value : Json} {setting : Setting}
    (hRead : ofJson? value = some settings)
    (hMissing : ∀ values, value.record? names = some values →
      values[setting.index]? = some none) : setting.get settings = setting.get default := by
  simp only [ofJson?, Option.bind_eq_bind, Option.bind_eq_some_iff] at hRead
  obtain ⟨values, hValues, hRead⟩ := hRead
  have hMissing := hMissing values hValues
  split at hRead
  · simp only [Option.bind_eq_some_iff, Option.pure_def, Option.some.injEq] at hRead
    obtain ⟨level, hLevel, passes, hPasses, check, hCheck, tolerance, hTolerance, threads, hThreads,
      rfl⟩ := hRead
    cases setting with
    | verbosity => exact orDefault_missing hLevel (Option.some.inj hMissing)
    | maxRefineIterations => exact orDefault_missing hPasses (Option.some.inj hMissing)
    | validateForest => exact orDefault_missing hCheck (Option.some.inj hMissing)
    | equivalenceTolerance => exact orDefault_missing hTolerance (Option.some.inj hMissing)
    | numThreads => exact orDefault_missing hThreads (Option.some.inj hMissing)
  · cases hRead

theorem get_eq_default_of_ofToml? {entries : Toml.Entries} {setting : Setting}
    (hRead : ofToml? entries = some settings) (hMissing : entries.find? setting.key = none) :
    setting.get settings = setting.get default := by
  simp only [ofToml?, names, List.map_cons, List.map_nil, Option.bind_eq_bind,
    Option.bind_eq_some_iff, Option.pure_def, Option.some.injEq] at hRead
  obtain ⟨level, hLevel, passes, hPasses, check, hCheck, tolerance, hTolerance, threads, hThreads,
    rfl⟩ := hRead
  cases setting with
  | verbosity => exact orDefault_missing hLevel hMissing
  | maxRefineIterations => exact orDefault_missing hPasses hMissing
  | validateForest => exact orDefault_missing hCheck hMissing
  | equivalenceTolerance => exact orDefault_missing hTolerance hMissing
  | numThreads => exact orDefault_missing hThreads hMissing

/-- An object without a field of a name has no value for it. -/
theorem record?_of_noField {fields : List (Option String × Json)} {values : List (Option Json)}
    {setting : Setting} (hValues : (Json.object fields).record? names = some values)
    (hNoField : ∀ value, (some setting.key, value) ∉ fields) :
    values[setting.index]? = some none := by
  simp only [Json.record?, Option.bind_eq_bind, Option.bind_eq_some_iff] at hValues
  obtain ⟨named, hNamed, hFields⟩ := hValues
  have hNone : Json.field? named setting.key = some none := by
    have hFilter : named.filter (fun field => field.1 == setting.key) = [] := by
      refine List.filter_eq_nil_iff.mpr fun field hField hName => ?_
      obtain ⟨⟨name, value⟩, hMem, hRead⟩ := Json.exists_of_mapM_eq_some hNamed hField
      obtain ⟨text, rfl, rfl⟩ := Option.map_eq_some_iff.mp hRead
      exact hNoField value (beq_iff_eq.mp hName ▸ hMem)
    rw [Json.field?, hFilter]
  have hName : names[setting.index]? = some setting.key := by cases setting <;> rfl
  exact Json.getElem?_of_mapM_eq_some hFields hName hNone

/-- A list that has ended has no value for a later name. -/
theorem record?_of_noItem {items : List Json} {values : List (Option Json)} {setting : Setting}
    (hValues : (Json.array items).record? names = some values)
    (hNoItem : items.length ≤ setting.index) : values[setting.index]? = some none := by
  have hIndex : setting.index < names.length := by cases setting <;> decide
  rw [Json.record?] at hValues
  split at hValues
  · cases hValues
    rw [List.getElem?_append_right (by simpa using hNoItem), List.getElem?_replicate_of_lt]
    rw [List.length_map]
    omega
  · cases hValues

/-- What a file leaves out has its default value. -/
theorem get_eq_default_of_load {setting : Setting}
    (hLoad : load codecs folder path = .ok settings) (hText : readText folder path = .ok text)
    (hOmits : Omits codecs path text setting) :
    setting.get settings = setting.get default := by
  obtain ⟨format, other, hOther, hFormat, hRead, -⟩ := load_eq_ok_iff.mp hLoad
  obtain rfl : other = text := Except.ok.inj (hOther.symm.trans hText)
  have hFormat' {known : FileFormat}
      (h : (Folder.Path.ofString path).extension? = some known.extension) : format = known :=
    Option.some.inj (hFormat.symm.trans (FileFormat.ofPath?_eq_some_iff.mpr h))
  cases hOmits with
  | field hJson hParse hNoField =>
      obtain rfl : format = .json := hFormat' hJson
      rw [FileFormat.read?, hParse, Option.bind_some] at hRead
      exact get_eq_default_of_ofJson? hRead fun values hValues =>
        record?_of_noField hValues hNoField
  | item hJson hParse hNoItem =>
      obtain rfl : format = .json := hFormat' hJson
      rw [FileFormat.read?, hParse, Option.bind_some] at hRead
      exact get_eq_default_of_ofJson? hRead fun values hValues => record?_of_noItem hValues hNoItem
  | entry hToml hParse hNoEntry =>
      obtain rfl : format = .toml := hFormat' hToml
      rw [FileFormat.read?, hParse, Option.bind_some] at hRead
      refine get_eq_default_of_ofToml? hRead (List.lookup_eq_none_iff.mpr fun entry hEntry => ?_)
      rw [bne_iff_ne]
      intro hKey
      exact hNoEntry entry.2 (hKey ▸ hEntry)

/-- With codecs that read back what they print, valid settings, whose counts are words of 64
bits, can be saved to every path of a JSON file that can be written, and to every such path
of a TOML file exactly if its integers hold the counts; they are read back as they were.
Other paths are refused, and nothing is written.  Settings that are loaded are valid and
have the default value wherever their file has none. -/
theorem fileRoundTrip (codecs : Codecs) (hJson : codecs.json.Inverts)
    (hToml : codecs.toml.Faithful) :
    (∀ (settings : Settings) (folder : Folder) (path : String), settings.validate = .ok () →
      settings.CountsWithin (2 ^ 64 - 1) →
      ((Folder.Path.ofString path).extension? = some "json" →
        ((∃ saved, settings.save codecs folder path = .ok saved) ↔ folder.Writable path) ∧
        ∀ saved, settings.save codecs folder path = .ok saved →
          load codecs saved path = .ok settings) ∧
      ((Folder.Path.ofString path).extension? = some "toml" →
        ((∃ saved, settings.save codecs folder path = .ok saved) ↔
          folder.Writable path ∧ settings.CountsWithin (2 ^ 63 - 1)) ∧
        ∀ saved, settings.save codecs folder path = .ok saved →
          load codecs saved path = .ok settings)) ∧
    (∀ (settings : Settings) (folder : Folder) (path : String),
      (Folder.Path.ofString path).extension? ≠ some "json" →
      (Folder.Path.ofString path).extension? ≠ some "toml" →
      settings.save codecs folder path = .error .unsupportedFormat ∧
      effect (saveInPlace codecs settings path) folder = (.error .unsupportedFormat, folder)) ∧
    ∀ (folder : Folder) (path : String) (settings : Settings),
      load codecs folder path = .ok settings →
      settings.validate = .ok () ∧ ∀ text setting, readText folder path = .ok text →
        Omits codecs path text setting → setting.get settings = setting.get default := by
  refine ⟨fun settings folder path hValid hWords => ⟨fun hPath => ?_, fun hPath => ?_⟩,
    fun settings folder path hNoJson hNoToml => ?_, fun folder path settings hLoad => ?_⟩
  · have hFormat : FileFormat.ofPath? path = some .json :=
      FileFormat.ofPath?_eq_some_iff.mpr hPath
    refine ⟨?_, fun saved hSave => load_of_save hJson hToml hValid hWords hSave⟩
    obtain ⟨text, hText, -⟩ := FileFormat.exists_write?_json hJson hValid hWords
    rw [exists_save_iff hFormat]
    exact and_iff_left ⟨text, hText⟩
  · have hFormat : FileFormat.ofPath? path = some .toml :=
      FileFormat.ofPath?_eq_some_iff.mpr hPath
    refine ⟨?_, fun saved hSave => load_of_save hJson hToml hValid hWords hSave⟩
    rw [exists_save_iff hFormat, FileFormat.exists_write?_toml_iff hToml hValid]
    rfl
  · have hFormat : FileFormat.ofPath? path = none := by
      rw [Option.eq_none_iff_forall_ne_some]
      intro format hFormat
      have hExtension := FileFormat.ofPath?_eq_some_iff.mp hFormat
      cases format with
      | json => exact hNoJson hExtension
      | toml => exact hNoToml hExtension
    have hSave : settings.save codecs folder path = .error .unsupportedFormat :=
      save_of_noFormat hFormat
    refine ⟨hSave, (performs_save codecs settings path).effect_of_error ?_⟩
    rw [hSave]
    rfl
  · obtain ⟨_, _, _, _, _, hValid⟩ := load_eq_ok_iff.mp hLoad
    exact ⟨hValid, fun text setting hText hOmits => get_eq_default_of_load hLoad hText hOmits⟩

/-- Settings with counts that are too large for TOML, and the least tolerance above zero. -/
def extreme : Settings where
  verbosity := .fatal
  maxRefineIterations := 2 ^ 64 - 1
  validateForest := false
  equivalenceTolerance := Float.ofBits 1
  numThreads := 2 ^ 63

/-- Settings with the largest counts of TOML, and a negative zero. -/
def extremeToml : Settings where
  verbosity := .warning
  maxRefineIterations := 2 ^ 63 - 1
  validateForest := false
  equivalenceTolerance := Float.ofBits 0x8000000000000000
  numThreads := 2 ^ 63 - 1

/-- A document that leaves out everything but the level. -/
def levelOnly : Json.Document :=
  .object [("verbosity", .string "Debug")]

theorem fileRoundTrip_extreme :
    Codecs.standard.json.Inverts ∧ Codecs.standard.toml.Faithful ∧
    (∃ saved, extreme.save .standard ⟨[], []⟩ "lower.json" = .ok saved ∧
      load .standard saved "lower.json" = .ok extreme) ∧
    (∃ saved, extremeToml.save .standard ⟨[], []⟩ "lower.toml" = .ok saved ∧
      load .standard saved "lower.toml" = .ok extremeToml) ∧
    (¬ ∃ saved, extreme.save .standard ⟨[], []⟩ "lower.toml" = .ok saved) ∧
    effect (saveInPlace .standard extreme "lower.txt") ⟨[], []⟩ =
      (.error .unsupportedFormat, ⟨[], []⟩) ∧
    ∃ folder loaded, load .standard folder "lower.json" = .ok loaded ∧
      loaded.verbosity = .debug ∧ loaded.numThreads = default.numThreads := by
  have hInverts : Codecs.standard.json.Inverts := Json.Codec.faithful_standard.toInverts
  have hFaithful : Codecs.standard.toml.Faithful := Toml.Codec.faithful_standard
  obtain ⟨hRoundTrip, hRefused, hLoaded⟩ := fileRoundTrip .standard hInverts hFaithful
  have hJson := hRoundTrip extreme ⟨[], []⟩ "lower.json" (by decide +kernel)
    ⟨by decide, by decide⟩ |>.1 rfl
  have hToml := hRoundTrip extremeToml ⟨[], []⟩ "lower.toml" (by decide +kernel)
    ⟨by decide, by decide⟩ |>.2 rfl
  have hLarge := hRoundTrip extreme ⟨[], []⟩ "lower.toml" (by decide +kernel)
    ⟨by decide, by decide⟩ |>.2 rfl
  refine ⟨hInverts, hFaithful, ?_, ?_, ?_,
    (hRefused extreme ⟨[], []⟩ "lower.txt" (by decide) (by decide)).2, ?_⟩
  · obtain ⟨saved, hSave⟩ := hJson.1.mpr ⟨[], _, rfl⟩
    exact ⟨saved, hSave, hJson.2 saved hSave⟩
  · obtain ⟨saved, hSave⟩ := hToml.1.mpr ⟨⟨[], _, rfl⟩, by decide, by decide⟩
    exact ⟨saved, hSave, hToml.2 saved hSave⟩
  · intro hSave
    exact absurd (hLarge.1.mp hSave).2.maxRefineIterations (by decide)
  · have hPlain : levelOnly.IsPlain Json.largestDepth :=
      .object (by decide) (by simp [Json.Document.IsPlain.string])
    obtain ⟨text, hText, hParse⟩ := hInverts.reads_back levelOnly hPlain
    obtain ⟨folder, hWrite⟩ : ∃ folder, Folder.write ⟨[], []⟩ "lower.json"
        text.toUTF8.toList = .ok folder :=
      Folder.Writable.exists_write ⟨[], _, rfl⟩ _
    have hRead := readText_of_write hWrite
    have hLoad : load .standard folder "lower.json" = .ok { default with verbosity := .debug } :=
      load_eq_ok_iff.mpr ⟨.json, text, hRead, rfl, by rw [FileFormat.read?, hParse]; rfl,
        by decide +kernel⟩
    have hOmits : Omits .standard "lower.json" text .numThreads :=
      .field rfl hParse (by simp [Setting.key, Json.Document.value.fieldValues])
    exact ⟨folder, _, hLoad, rfl, (hLoaded folder _ _ hLoad).2 text .numThreads hRead hOmits⟩

end Settings

end ForestGraph
