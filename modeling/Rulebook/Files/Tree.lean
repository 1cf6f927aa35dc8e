/-
Files as a value. A tree lists what stands at each place, a place being the names from the top down to it; the top is a
directory, and so is whatever is listed as one. A path is followed name by name from the top or from the working
directory: every name but the last must lead to a directory, and two dots lead back up. Names and paths have a greatest
length, which counts bytes; a name that is too long is refused where it would be looked up.

Writing, and making directories, give a new tree or the fault that prevents it. A file is opened, which empties it or makes
it, before its text is put into bytes; so a text that has no bytes leaves an empty file.
-/
import Rulebook.Files.Path
import Rulebook.Text.Utf8

namespace Rulebook

/-- why the system refuses to do something with a path -/
inductive SystemFault where
  | missing
  | alreadyThere
  | notDirectory
  | isDirectory
  | nameTooLong
  deriving DecidableEq, Repr

namespace SystemFault

def message : SystemFault → Text
  | .missing => "No such file or directory"
  | .alreadyThere => "File exists"
  | .notDirectory => "Not a directory"
  | .isDirectory => "Is a directory"
  | .nameTooLong => "File name too long"

def number : SystemFault → Nat
  | .missing => 2
  | .alreadyThere => 17
  | .notDirectory => 20
  | .isDirectory => 21
  | .nameTooLong => 36

/-- a refusal with its number and the path it is about -/
def report (f : SystemFault) (path : Path) : Text :=
  "[Errno " ++ Text.ofNat f.number ++ "] " ++ f.message ++ ": " ++ Text.quoted path.text

end SystemFault

/-- a place in a tree: the names from the top down -/
abbrev Spot := List Text

/-- what stands at a place -/
inductive FileNode where
  | directory
  | file (content : Bytes)
  deriving DecidableEq, Repr

/-- files and directories, and the directory that relative paths start from -/
structure FileTree where
  working : Spot
  entries : List (Spot × FileNode)
  deriving DecidableEq, Repr

namespace FileTree

def entryAt (t : FileTree) (spot : Spot) : Option FileNode :=
  if spot = [] then some .directory else t.entries.lookup spot

def holdsDirectory (t : FileTree) (spot : Spot) : Bool :=
  t.entryAt spot = some .directory

/-- list an entry at a place, in the stead of what is listed there -/
def put (t : FileTree) (spot : Spot) (e : FileNode) : FileTree :=
  { t with entries := (spot, e) :: t.entries.filter fun p => decide (p.1 ≠ spot) }

def nameLimit : Nat := 255

def pathLimit : Nat := 4095

/-- follow names from a place; the last one may lead to nothing -/
def follow (t : FileTree) (spot : Spot) : List Text → Except SystemFault Spot
  | [] => .ok spot
  | name :: rest =>
    match t.entryAt spot with
    | none => .error .missing
    | some (.file _) => .error .notDirectory
    | some .directory =>
      if name = Text.ofString ".." then follow t spot.dropLast rest
      else if nameLimit < Utf8.size name then .error .nameTooLong
      else follow t (spot ++ [name]) rest

def locate (t : FileTree) (p : Path) : Except SystemFault Spot :=
  if pathLimit < Utf8.size p.text then .error .nameTooLong
  else t.follow (if p.isAbsolute then [] else t.working) p.parts

/-- the place that a path names, whether or not anything stands there: two dots take back the name before them -/
def resolve (t : FileTree) (p : Path) : Spot :=
  p.parts.foldl (fun spot name => if name = Text.ofString ".." then spot.dropLast else spot ++ [name])
    (if p.isAbsolute then [] else t.working)

def pathOf (spot : Spot) : Path :=
  ⟨.slash, spot⟩

/-- whether a file stands where a path leads; the question is refused only for the length of a name -/
def findsFile (t : FileTree) (p : Path) : Except SystemFault Bool :=
  if p.isNameable then
    match t.locate p with
    | .error .nameTooLong => .error .nameTooLong
    | .error _ => .ok false
    | .ok spot =>
      match t.entryAt spot with
      | some (.file _) => .ok true
      | _ => .ok false
  else .ok false

/-- the first path that leads to a file, or the first one about which the question is refused -/
def firstFile? (t : FileTree) : List Path → Except (Path × SystemFault) (Option Path)
  | [] => .ok none
  | p :: ps =>
    match t.findsFile p with
    | .error fault => .error (p, fault)
    | .ok true => .ok (some p)
    | .ok false => t.firstFile? ps

def isDirectory (t : FileTree) (p : Path) : Bool :=
  match t.locate p with
  | .error _ => false
  | .ok spot => t.holdsDirectory spot

def read (t : FileTree) (p : Path) : Except SystemFault Bytes :=
  match t.locate p with
  | .error f => .error f
  | .ok spot =>
    match t.entryAt spot with
    | none => .error .missing
    | some .directory => .error .isDirectory
    | some (.file content) => .ok content

/-- give a file a content; the directory that is to hold it must exist -/
def write (t : FileTree) (p : Path) (content : Bytes) : Except SystemFault FileTree :=
  match t.locate p with
  | .error f => .error f
  | .ok spot =>
    match t.entryAt spot with
    | some .directory => .error .isDirectory
    | some (.file _) => .ok (t.put spot (.file content))
    | none => if t.holdsDirectory spot.dropLast then .ok (t.put spot (.file content)) else .error .missing

def makeOne (t : FileTree) (p : Path) : Except SystemFault FileTree :=
  match t.locate p with
  | .error f => .error f
  | .ok spot =>
    match t.entryAt spot with
    | some _ => .error .alreadyThere
    | none => if t.holdsDirectory spot.dropLast then .ok (t.put spot .directory) else .error .missing

/-- a directory that is already there is as good as a new one -/
def orThere (t : FileTree) (p : Path) (f : SystemFault) : FileTree × Option (SystemFault × Path) :=
  if t.isDirectory p then (t, none) else (t, some (f, p))

/-- make the directory of a path with this root whose names are given from the last to the first, and before it the
directories that should hold it; what is made before a fault stays -/
def makeUp (t : FileTree) (root : Root) : (names : List Text) → FileTree × Option (SystemFault × Path)
  | [] => t.orThere ⟨root, []⟩ .alreadyThere
  | name :: above =>
    let p : Path := ⟨root, (name :: above).reverse⟩
    match t.makeOne p with
    | .ok made => (made, none)
    | .error .missing =>
      match makeUp t root above with
      | (t, some problem) => (t, some problem)
      | (t, none) =>
        match t.makeOne p with
        | .ok made => (made, none)
        | .error .missing => (t, some (.missing, p))
        | .error f => t.orThere p f
    | .error f => t.orThere p f

/-- make a directory and those above it that are missing; the fault names the path that cannot be made -/
def makeDirectory (t : FileTree) (p : Path) : FileTree × Option (SystemFault × Path) :=
  t.makeUp p.root p.parts.reverse

end FileTree

/-- why a text cannot be written -/
inductive WriteFault where
  | refused (fault : SystemFault)
  | unencodable (fault : Utf8.EncodeFault)
  deriving DecidableEq, Repr

/-- give a file a text; the tree is as the attempt leaves it -/
def FileTree.writeText (files : FileTree) (file : Path) (t : Text) : FileTree × Option WriteFault :=
  match files.write file [] with
  | .error fault => (files, some (.refused fault))
  | .ok emptied =>
    match Utf8.encode t with
    | .error fault => (emptied, some (.unencodable fault))
    | .ok content =>
      match files.write file content with
      | .error fault => (files, some (.refused fault))
      | .ok written => (written, none)

/-- a text as files hold it when they are read: every line end is a line feed -/
def Text.unifyLineEnds : Text → Text
  | [] => []
  | [c] => if c = '\r' then ['\n'] else [c]
  | c :: d :: rest =>
    if c = '\r' then
      if d = '\n' then CodePoint.ofChar '\n' :: unifyLineEnds rest
      else CodePoint.ofChar '\n' :: unifyLineEnds (d :: rest)
    else c :: unifyLineEnds (d :: rest)

end Rulebook
