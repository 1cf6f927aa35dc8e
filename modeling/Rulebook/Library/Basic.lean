/-
A library reads grammars and the grammars they use. What has been read stands on the shelf under its name and is shared
by all who use it; a name that no file declares gets an empty grammar on the shelf. A grammar that is used again while
it is still being read is replaced, there, by an empty one.

A used grammar is looked for by its name: on the shelf, among the names being read, as the built-in grammar, then as a
file, next to the grammar that uses it and in the search paths, under its full name turned into a path or its simple
name. What a file declares need not be the name it was looked for by, so files can use one another without an end; the
number of files open at a time is limited, and reading deeper than the limit is refused.

Reading gives a result and the library as it is left; a failure leaves what was read before it.
-/
import Rulebook.Files.Tree
import Rulebook.Grammar.Linking
import Rulebook.Library.Builtin

namespace Rulebook

open Source

/-- why a grammar cannot be read -/
inductive ReadError where
  | syntactic (e : SyntaxError)
  | unreadable (file : Path) (fault : SystemFault)
  | undecodable (file : Path) (fault : Utf8.DecodeFault)
  | unsearchable (file : Path) (fault : SystemFault)
  | unnameable
  | tooDeep
  deriving DecidableEq, Repr

def ReadError.message : ReadError → Text
  | .syntactic e => e.message
  | .unreadable file fault => "Cannot read grammar file " ++ file.text ++ ": " ++ fault.message
  | .undecodable file fault =>
    "Grammar file " ++ file.text ++ " is not valid UTF-8 (byte " ++ Text.ofNat fault.offset ++ ": " ++
      fault.reason.message ++ ")"
  | .unsearchable file fault => fault.report file
  | .unnameable => Path.unnameable
  | .tooDeep => "Grammar files use one another too deeply"

/-- the grammars read so far, the names being read, the next free identity, and the log -/
structure Library where
  shelf : List (Text × Grammar)
  opened : List Text
  fresh : Nat
  log : Log

namespace Library

def empty : Library := ⟨[], [], 0, []⟩

/-- a grammar of which only the name is known -/
def stub (id : Nat) (name : Text) : Grammar :=
  ⟨id, name, none, [], [], [], []⟩

/-- put a grammar on the shelf under its name, unless the name is taken -/
def keep (l : Library) (g : Grammar) : Library :=
  match l.shelf.lookup g.name with
  | some _ => l
  | none => { l with shelf := l.shelf ++ [(g.name, g)] }

/-- the name is being read -/
def enter (l : Library) (name : Text) : Library :=
  if name ∈ l.opened then l else { l with opened := name :: l.opened }

/-- the name is not being read any more -/
def leave (l : Library) (name : Text) : Library :=
  { l with opened := l.opened.filter fun n => decide (n ≠ name) }

def note (l : Library) (n : Log) : Library :=
  { l with log := l.log ++ n }

def next (l : Library) : Library :=
  { l with fresh := l.fresh + 1 }

/-- the files that may declare a grammar of this name in a directory -/
def candidates (name : Text) (directory : Path) : List Path :=
  let asPath : Text := name.map fun (c : CodePoint) => if c = '.' then CodePoint.ofChar '/' else c
  [directory.child (asPath ++ ".xtext"), directory.child (Grammar.simpleName name ++ ".xtext")]

/-- the file that declares a grammar of this name -/
def findFile? (files : FileTree) (directories : List Path) (name : Text) : Except ReadError (Option Path) :=
  (files.firstFile? (directories.flatMap (candidates name))).mapError fun (file, fault) => .unsearchable file fault

/-- a result and the library as it is left -/
abbrev Outcome (α : Type) := Except ReadError α × Library

/-- how used grammars are read: by file, with the library before it -/
abbrev FileReader := Path → Library → Outcome Grammar

/-- read the used grammars one after the other, up to the first failure -/
def eachUsed (load : Text → Library → Outcome Grammar) : List Text → Library → Outcome (List Grammar)
  | [], l => (.ok [], l)
  | name :: names, l =>
    match load name l with
    | (.error e, l) => (.error e, l)
    | (.ok g, l) =>
      match eachUsed load names l with
      | (.error e, l) => (.error e, l)
      | (.ok gs, l) => (.ok (g :: gs), l)

/-- read a text; `load` gives the grammars it uses -/
def readWith (load : Text → Library → Outcome Grammar) (file : Path) (source : Text) (l : Library) :
    Outcome Grammar :=
  match WrittenGrammar.ofText file source with
  | .error e => (.error (.syntactic e), l)
  | .ok written =>
    match eachUsed load written.uses (l.enter written.name) with
    | (.error e, l) => (.error e, l.leave written.name)
    | (.ok used, l) =>
      let l := l.leave written.name
      let g := written.link l.fresh used
      (.ok g, ((l.next.note (written.linkLog l.fresh used)).keep g).note [.readGrammar g.name g.rules.length])

/-- a used grammar that no file declares -/
def missing (name : Text) (l : Library) : Library × Grammar :=
  let g := stub l.fresh name
  ({ (l.next.note [.missingGrammar name]) with shelf := l.shelf ++ [(name, g)] }, g)

/-- read the built-in grammar, which uses no other -/
def readBuiltin (l : Library) : Outcome Grammar :=
  readWith (fun name l => (.ok (stub l.fresh name), l.next)) (Path.ofText ("<" ++ builtinName ++ ">")) builtinSource l

/-- the grammar that a name means, seen from a grammar with these directories -/
def use (files : FileTree) (directories : List Path) (load : FileReader) (name : Text) (l : Library) :
    Outcome Grammar :=
  match l.shelf.lookup name with
  | some g => (.ok g, l)
  | none =>
    if name ∈ l.opened then (.ok (stub l.fresh name), l.next.note [.circularUse name])
    else if name = builtinName then readBuiltin l
    else
      match findFile? files directories name with
      | .error e => (.error e, l)
      | .ok none =>
        let (l, g) := missing name l
        (.ok g, l)
      | .ok (some file) => load file l

def textOf (files : FileTree) (file : Path) : Except ReadError Text :=
  if file.isNameable then
    match files.read file with
    | .error fault => .error (.unreadable file fault)
    | .ok content =>
      match Utf8.decode content with
      | .error fault => .error (.undecodable file fault)
      | .ok t => .ok t.unifyLineEnds
  else .error .unnameable

/-- read a file, with at most `depth` files open inside it -/
def readGrammarWithin (files : FileTree) (searchPaths : List Path) : (depth : Nat) → FileReader
  | 0, _, l => (.error .tooDeep, l)
  | depth + 1, file, l =>
    match textOf files file with
    | .error e => (.error e, l)
    | .ok source =>
      readWith (use files (file.parent :: searchPaths) (readGrammarWithin files searchPaths depth)) file source l

/-- how many files may be open at a time: as many as there are, and some more, since a file may be opened inside itself
and still come to an end -/
def depthLimit (files : FileTree) : Nat :=
  files.entries.length + 256

def readGrammar (files : FileTree) (searchPaths : List Path) (file : Path) (l : Library) : Outcome Grammar :=
  readGrammarWithin files searchPaths (depthLimit files) file l

/-- read the text of a grammar; the grammars it uses are looked for in `base`, if given, and in the search paths -/
def readText (files : FileTree) (searchPaths : List Path) (file : Path) (base : Option Path) (source : Text)
    (l : Library) : Outcome Grammar :=
  readWith (use files (base.toList ++ searchPaths) (readGrammar files searchPaths)) file source l

end Library

end Rulebook
