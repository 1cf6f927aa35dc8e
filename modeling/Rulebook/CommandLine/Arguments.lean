/-
The words of a command line. The first word is the command; the words behind it are options and positional words, in any
order. A long option stands behind two dashes and may have its value behind an equals sign; short options are letters
behind one dash, several of them together, the last perhaps with its value right behind it. An option that takes a value
takes the next word, whatever it is, when no value stands with it. Two dashes alone end the options.

Anything else is a wrong use of the program, and so is a path that cannot be named to a system; nothing more is known
about it.
-/
import Rulebook.Files.Path

namespace Rulebook.CommandLine

inductive Switch where
  | config
  | format
  | output
  | search
  | graph
  | noGraph
  | dedupeEdges
  | verbose
  deriving DecidableEq, Repr

def Switch.takesValue : Switch → Bool
  | .config | .format | .output | .search => true
  | .graph | .noGraph | .dedupeEdges | .verbose => false

def Switch.spellings : Switch → List Text
  | .config => ["--config", "-c"].map Text.ofString
  | .format => ["--format", "-f"].map Text.ofString
  | .output => ["--output", "-o"].map Text.ofString
  | .search => ["--include", "-I"].map Text.ofString
  | .graph => ["--graph"].map Text.ofString
  | .noGraph => ["--no-graph"].map Text.ofString
  | .dedupeEdges => ["--dedupe-edges"].map Text.ofString
  | .verbose => ["--verbose", "-v"].map Text.ofString

/-- the options of a list, each with its value, which is empty when it takes none -/
abbrev Given := List (Switch × Text)

def switch? (known : List Switch) (spelling : Text) : Option Switch :=
  known.find? fun s => spelling ∈ s.spellings

/-- words that are left of some others -/
abbrev Left (words : List Text) := { rest : List Text // rest.length ≤ words.length }

/-- an option with a value that stands with it or is the next word -/
def valued (s : Switch) (value : Option Text) (words : List Text) : Option (Given × Left words) :=
  match value, words with
  | some v, words => some ([(s, v)], ⟨words, by simp⟩)
  | none, v :: rest => some ([(s, v)], ⟨rest, by simp⟩)
  | none, [] => none

/-- a long option, of which the spelling and perhaps a value are known -/
def longOption (known : List Switch) (spelling : Text) (value : Option Text) (words : List Text) :
    Option (Given × Left words) := do
  let s ← switch? known spelling
  if s.takesValue then valued s value words
  else if value.isSome then none
  else some ([(s, [])], ⟨words, by simp⟩)

/-- short options, by the letters behind the dash -/
def shortOptions (known : List Switch) (words : List Text) : Text → Option (Given × Left words)
  | [] => some ([], ⟨words, by simp⟩)
  | letter :: more => do
    let s ← switch? known [CodePoint.ofChar '-', letter]
    if s.takesValue then valued s (if more.isEmpty then none else some more) words
    else
      let (given, rest) ← shortOptions known words more
      some ((s, []) :: given, rest)

/-- a word before and behind its first equals sign; the latter is missing when there is none -/
def splitValue (word : Text) : Text × Option Text :=
  match word.dropWhile fun (c : CodePoint) => c ≠ '=' with
  | [] => (word, none)
  | _ :: value => (word.takeWhile fun (c : CodePoint) => c ≠ '=', some value)

/-- the options that one word holds; a value may be taken from the words behind it -/
def optionWord (known : List Switch) (word : Text) (words : List Text) : Option (Given × Left words) :=
  if word.startsWith "--" then longOption known (splitValue word).1 (splitValue word).2 words
  else shortOptions known words (word.drop 1)

/-- the word is no positional one -/
def isOption (word : Text) : Bool :=
  word.startsWith "-" && decide (1 < word.length)

def readWords (known : List Switch) : (words : List Text) → Option (Given × List Text)
  | [] => some ([], [])
  | word :: words =>
    if word = Text.ofString "--" then some ([], words)
    else if isOption word then
      match optionWord known word words with
      | none => none
      | some (given, ⟨rest, _⟩) =>
        (readWords known rest).map fun (more, positional) => (given ++ more, positional)
    else (readWords known words).map fun (given, positional) => (given, word :: positional)
termination_by words => words.length

structure Choices where
  config : Option Path
  format : Option Text
  output : Option Path
  searchPaths : List Path
  graph : Option Bool
  dedupeEdges : Bool
  verbose : Bool
  deriving DecidableEq, Repr

namespace Choices

def none : Choices := ⟨.none, .none, .none, [], .none, false, false⟩

/-- one more option; of options that exclude one another the later one counts -/
def add (c : Choices) : Switch × Text → Choices
  | (.config, v) => { c with config := some (Path.ofText v) }
  | (.format, v) => { c with format := some v }
  | (.output, v) => { c with output := some (Path.ofText v) }
  | (.search, v) => { c with searchPaths := c.searchPaths ++ [Path.ofText v] }
  | (.graph, _) => { c with graph := some true }
  | (.noGraph, _) => { c with graph := some false }
  | (.dedupeEdges, _) => { c with dedupeEdges := true }
  | (.verbose, _) => { c with verbose := true }

def paths (c : Choices) : List Path :=
  c.config.toList ++ c.output.toList ++ c.searchPaths

/-- what all options together ask for -/
def ofGiven (g : Given) : Choices :=
  g.foldl add none

end Choices

inductive Command where
  | generate (files : List Path) (choices : Choices)
  | graph (file : Path) (choices : Choices)
  | rule (file : Path) (name : Text) (choices : Choices)
  | formats
  deriving DecidableEq, Repr

namespace Command

/-- a command by its name, with the words behind it -/
def ofName? (name : Text) (words : List Text) : Option Command :=
  if name = Text.ofString "generate" then
    match readWords [.format, .output, .config, .search, .graph, .noGraph, .dedupeEdges, .verbose] words with
    | some (given, f :: files) => some (.generate ((f :: files).map Path.ofText) (.ofGiven given))
    | _ => none
  else if name = Text.ofString "graph" then
    match readWords [.output, .config, .search, .dedupeEdges, .verbose] words with
    | some (given, [f]) => some (.graph (Path.ofText f) (.ofGiven given))
    | _ => none
  else if name = Text.ofString "rule" then
    match readWords [.format, .config, .search, .verbose] words with
    | some (given, [f, wanted]) => some (.rule (Path.ofText f) wanted (.ofGiven given))
    | _ => none
  else if name = Text.ofString "formats" then
    match readWords [] words with
    | some (_, []) => some .formats
    | _ => none
  else none

def paths : Command → List Path
  | .generate files c => files ++ c.paths
  | .graph file c => file :: c.paths
  | .rule file _ c => file :: c.paths
  | .formats => []

def ofWords? : List Text → Option Command
  | [] => none
  | word :: words =>
    let command :=
      if word = Text.ofString "--" then
        match words with
        | [] => none
        | name :: words => ofName? name words
      else ofName? word words
    command.filter fun c => c.paths.all Path.isNameable

end Command

end Rulebook.CommandLine
