/-
Settings files. A directory holds settings in a file of their own or in a section of the project file; the former counts
whenever it is there, the latter only when it has that section. The nearest file counts, searching from a place upwards.

A section is looked for in whatever value stands in its place, and so a project file whose `tool` is not a table fails
in its own ways; so do a file that is not UTF-8, a number that is too long, and a path that no system takes. Everything
else that is wrong with a file is told together with its path.
-/
import Rulebook.Failure
import Rulebook.Files.Tree
import Rulebook.Notice
import Rulebook.Settings.Reading
import Rulebook.Toml.Document

namespace Rulebook

/-- why there are no settings -/
inductive SettingsError where
  | notFound (file : Path)
  | unreadable (file : Path) (fault : SystemFault)
  | malformed (file : Path)
  | invalid (file : Path) (problems : List Problem)
  | undecodable (fault : Utf8.DecodeFault)
  | tooManyDigits (count : Nat)
  | notSearchable (className : Text)
  | noLookup (object : MissingPart)
  | unsearchable (file : Path) (fault : SystemFault)
  | unnameable
  deriving DecidableEq, Repr

def SettingsError.message : SettingsError → Text
  | .notFound file => "Configuration file not found: " ++ file.text
  | .unreadable file fault => "Cannot read " ++ file.text ++ ": " ++ fault.report file
  | .malformed file => "Invalid TOML in " ++ file.text
  | .invalid file problems =>
    "Invalid configuration in " ++ file.text ++ ": " ++ Text.join "; " (problems.map Problem.text)
  | .undecodable fault => fault.report
  | .tooManyDigits count =>
    "Exceeds the limit (" ++ Text.ofNat Toml.digitLimit ++ " digits) for integer string conversion: value has " ++
      Text.ofNat count ++ " digits; use sys.set_int_max_str_digits() to increase the limit"
  | .notSearchable className => "argument of type '" ++ className ++ "' is not iterable"
  | .noLookup object => object.message
  | .unsearchable file fault => fault.report file
  | .unnameable => Path.unnameable

namespace Settings

/-- the name of the section, and of the file that has it at its top -/
def sectionName : Text := "grammardocs"

/-- the file that holds settings only -/
def fileName : Text := "grammardocs.toml"

/-- the file that holds settings of several programs -/
def projectFileName : Text := "pyproject.toml"

/-- settings from a value, which stands in a file -/
def ofValueIn (file : Path) (v : Value) : Except SettingsError Settings :=
  (Settings.ofValue v).mapError (.invalid file)

def readTable (files : FileTree) (file : Path) : Except SettingsError Table :=
  match files.read file with
  | .error fault => .error (.unreadable file fault)
  | .ok content =>
    match Utf8.decode content with
    | .error fault => .error (.undecodable fault)
    | .ok t =>
      match Toml.ofText t with
      | .error .malformed => .error (.malformed file)
      | .error (.tooManyDigits count) => .error (.tooManyDigits count)
      | .ok table => .ok table

/-- what a project file says about its programs; nothing when it is silent -/
def tools (t : Table) : Value :=
  (t.lookup (Text.ofString "tool")).getD (.table [])

/-- the name occurs in a value: as a key, as an item, or inside a text -/
def mentions (name : Text) : Value → Except SettingsError Bool
  | .table t => .ok (t.lookup name).isSome
  | .list vs => .ok (vs.any fun v => match v with
    | .text t => t = name
    | _ => false)
  | .text t => .ok (Text.holds name t)
  | v => .error (.notSearchable v.className)

/-- the section for settings in a value; nothing is set when it is missing -/
def sectionOf : Value → Except SettingsError Value
  | .table t => .ok ((t.lookup sectionName).getD (.table []))
  | v => .error (.noLookup ⟨v.className, "get"⟩)

def sectionIn (file : Path) (t : Table) : Except SettingsError Value :=
  if file.fileName = projectFileName then sectionOf (tools t) else sectionOf (.table t)

def isFile (files : FileTree) (file : Path) : Except SettingsError Bool :=
  (files.findsFile file).mapError (.unsearchable file)

def holdsSection (files : FileTree) (file : Path) : Except SettingsError Bool := do
  let t ← readTable files file
  mentions sectionName (tools t)

def fileIn (files : FileTree) (directory : Path) : Except SettingsError (Option Path) := do
  let own := directory.child fileName
  let shared := directory.child projectFileName
  if ← isFile files own then return some own
  else if ← isFile files shared then return if ← holdsSection files shared then some shared else none
  else return none

def fileInAny (files : FileTree) : List Path → Except SettingsError (Option Path)
  | [] => return none
  | directory :: more => do
    match ← fileIn files directory with
    | some file => return some file
    | none => fileInAny files more

/-- a directory and those above it, up to the top -/
def upwards (spot : Spot) : List Path :=
  (List.range (spot.length + 1)).map fun n => FileTree.pathOf (spot.take (spot.length - n))

/-- the nearest settings file, from a path upwards; a file stands for its directory -/
def findFile (files : FileTree) (start : Option Path) : Except SettingsError (Option Path) := do
  let start := start.getD "."
  if start.isNameable then
    let spot := files.resolve start
    let directory := if ← isFile files (FileTree.pathOf spot) then spot.dropLast else spot
    fileInAny files (upwards directory)
  else throw .unnameable

/-- the settings of a file, seen from its directory, and what the log hears -/
def ofFile (files : FileTree) (file : Path) : Except SettingsError Settings × Log :=
  match readTable files file with
  | .error e => (.error e, [])
  | .ok t =>
    match sectionIn file t with
    | .error e => (.error e, [])
    | .ok v => ((ofValueIn file v).map (anchored file.parent), [.loadedSettings file])

/-- the settings of a file, or of the nearest one from a path upwards when none is named; without any file the standard
ones hold -/
def load (files : FileTree) (file start : Option Path) : Except SettingsError Settings × Log :=
  match file with
  | some file =>
    match isFile files file with
    | .error e => (.error e, [])
    | .ok true => ofFile files file
    | .ok false => (.error (.notFound file), [])
  | none =>
    match findFile files start with
    | .error e => (.error e, [])
    | .ok none => (.ok standard, [.defaultSettings])
    | .ok (some file) => ofFile files file

end Settings

end Rulebook
