/-
The program. It takes the part of the disk that a command may look at into a tree, runs the command on the tree, puts
the new files on the disk, and prints what the run gives. What a command does is decided by the run alone.
-/
import Rulebook.CommandLine.Run

namespace Rulebook.Disk

open CommandLine

/-- a text for the screen and the disk; surrogates have no form there -/
def stringOf (t : Text) : String :=
  String.ofList (t.map fun c => if c.isSurrogate then '\uFFFD' else Char.ofNat c.val)

def nameOf (place : Spot) : String :=
  stringOf (FileTree.pathOf place).text

/-- the content that stands for one that no command looks at; no command writes it -/
def unread : Bytes := [0]

/-- how many levels of directories are looked through -/
def levels : Nat := 32

/-- the names of files that commands look at without being told to -/
def isLookedAt (name : Text) : Bool :=
  name.endsWith ".xtext" || name = Settings.fileName || name = Settings.projectFileName

/-- the tree with what stands at one place of the disk, and `depth` levels of what stands below it -/
def take (isWanted : Text → Bool) (place : Spot) : (depth : Nat) → FileTree → IO FileTree
  | depth, t => do
    let p := (← IO.currentDir) / nameOf place
    if ← p.isDir then
      let t := { t with entries := (place, .directory) :: t.entries }
      match depth with
      | 0 => return t
      | depth + 1 =>
        (← p.readDir).toList.foldlM
          (fun t entry => take isLookedAt (place ++ [Text.ofString entry.fileName]) depth t) t
    else if ← p.pathExists then
      let content ← if isWanted (place.getLastD []) then pure (← IO.FS.readBinFile p).toList else pure unread
      return { t with entries := (place, .file content) :: t.entries }
    else return t

/-- the tree with what stands at a place that is named, all below it, and the directories above it -/
def takeNamed (t : FileTree) (place : Spot) : IO FileTree := do
  let above := (List.range place.length).map fun n => place.take n
  let t ← above.foldlM (fun t place => take isLookedAt place 0 t) t
  take (fun _ => true) place levels t

/-- the tree with what stands at the ends of some paths -/
def takePaths (t : FileTree) (paths : List Path) : IO FileTree :=
  (paths.map t.resolve).foldlM takeNamed t

/-- the paths that a command names, and the directories of its grammar files -/
def pathsOf (c : Command) : List Path :=
  match c with
  | .generate files _ => files.map Path.parent ++ c.paths
  | .graph file _ => file.parent :: c.paths
  | .rule file _ _ => file.parent :: c.paths
  | .formats => []

/-- the settings file that a command names -/
def configOf : Command → Option Path
  | .generate _ c => c.config
  | .graph _ c => c.config
  | .rule _ _ c => c.config
  | .formats => none

/-- the part of the disk that a command may look at -/
def treeFor (c : Command) : IO FileTree := do
  let working := (Path.ofText (Text.ofString (← IO.currentDir).toString)).parts
  let settingsFiles := (Settings.upwards working).flatMap fun directory =>
    [directory.child Settings.fileName, directory.child Settings.projectFileName]
  let t ← takePaths ⟨working, []⟩ (settingsFiles ++ pathsOf c)
  match (Settings.load t (configOf c) none).1 with
  | .ok s => takePaths t (s.output :: s.searchPaths)
  | .error _ => return t

/-- the part of the disk that the words of a command line are about; none if they are no command -/
def treeForWords (words : List Text) : IO FileTree :=
  match Command.ofWords? words with
  | some c => treeFor c
  | none => return ⟨[], []⟩

/-- put on the disk what is new in a tree, the oldest first -/
def give (before after : FileTree) : IO Unit :=
  after.entries.reverse.forM fun (place, node) => do
    if before.entryAt place ≠ some node then
      match node with
      | .directory => IO.FS.createDir (nameOf place)
      | .file content => IO.FS.writeBinFile (nameOf place) ⟨content.toArray⟩

def print (run : Run) : IO Unit := do
  let err ← IO.getStderr
  run.log.forM fun n => err.putStrLn (stringOf n.line)
  (← IO.getStdout).putStr (stringOf run.out)
  err.putStr (stringOf run.err)
  run.escaped.forM fun e => err.putStrLn (stringOf e.message)

end Rulebook.Disk

/-- the program: the words of the command line are the command -/
def main (words : List String) : IO UInt32 := do
  let words := words.map Rulebook.Text.ofString
  let wanted := (← IO.getEnv "GRAMMARDOCS_LOG_LEVEL").map Rulebook.Text.ofString
  let before ← Rulebook.Disk.treeForWords words
  let run := Rulebook.CommandLine.run before wanted words
  Rulebook.Disk.give before run.files
  Rulebook.Disk.print run
  return run.code.toUInt32
