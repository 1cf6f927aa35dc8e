/-
From grammar files to documents. A grammar file is read, documented, and formatted by the formatter that the settings
name; the document goes into the output directory under the simple name of the grammar, and beside it its graph, unless
the settings say otherwise or the document is the graph already. A graph or the section of one rule can also be had
without writing anything.

The formatter is looked up before anything is read, and nothing is written before the grammar is read. What is done
before a failure stays done.
-/
import Rulebook.Document.Registry
import Rulebook.Files.Tree
import Rulebook.Library.Basic
import Rulebook.Settings.Basic

namespace Rulebook

/-- why there is no document, graph or section -/
inductive GenerationError where
  | noFormatter (e : RegistryError)
  | unread (e : ReadError)
  | undocumented (p : Precondition)
  | unnameable
  | noDirectory (directory : Path) (fault : SystemFault)
  | unwritten (file : Path) (fault : SystemFault)
  | unencodable (fault : Utf8.EncodeFault)
  | unformatted (e : FormatError)
  | noRule (grammar rule : Text) (known : List Text)
  deriving DecidableEq, Repr

def GenerationError.message : GenerationError → Text
  | .noFormatter e => e.message
  | .unread e => e.message
  | .undocumented p => p.message
  | .unnameable => Path.unnameable
  | .noDirectory directory fault => "Cannot create output directory " ++ directory.text ++ ": " ++ fault.message
  | .unwritten file fault => "Cannot write " ++ file.text ++ ": " ++ fault.message
  | .unencodable fault => fault.report
  | .unformatted (.unsupported u) => u.message
  | .unformatted (.unprintable u) => u.message
  | .noRule grammar rule known =>
    "Grammar " ++ grammar ++ " has no rule '" ++ rule ++ "'. Available rules: " ++ Text.join ", " known

structure Generated where
  grammar : Text
  rules : Nat
  document : Path
  graph : Option Path
  deriving DecidableEq, Repr

def Generated.written (g : Generated) : List Path :=
  g.document :: g.graph.toList

/-- the files, and the log so far -/
structure Desk where
  files : FileTree
  log : Log

/-- work at a desk, which may fail; the desk is as the work leaves it -/
abbrev Work (α : Type) := ExceptT GenerationError (StateM Desk) α

namespace Work

/-- work that only gives a result and lines for the log -/
def report {α : Type} (r : Except GenerationError α) (l : Log) : Work α := do
  modify fun d => { d with log := d.log ++ l }
  match r with
  | .ok a => return a
  | .error e => throw e

/-- go on only with a path that can be named to a system -/
def named (p : Path) : Work Unit :=
  if p.isNameable then return () else throw .unnameable

def makeDirectory (p : Path) : Work Unit := do
  named p
  let d ← get
  let (files, problem) := d.files.makeDirectory p
  set { d with files }
  match problem with
  | none => return ()
  | some (fault, _) => throw (.noDirectory p fault)

def write (file : Path) (t : Text) : Work Unit := do
  named file
  let d ← get
  let (files, problem) := d.files.writeText file t
  set { d with files }
  match problem with
  | none => report (.ok ()) [.wrote file]
  | some (.refused fault) => throw (.unwritten file fault)
  | some (.unencodable fault) => throw (.unencodable fault)

end Work

namespace Generation

def formatter (s : Settings) : Work Formatter :=
  Work.report ((Registry.standard.get s.formatter (some s.options)).mapError .noFormatter) []

def documentation (s : Settings) (file : Path) : Work GrammarDoc := do
  let d ← get
  let (read, l) := Library.readGrammar d.files (file.parent :: s.searchPaths) file .empty
  let g ← Work.report (read.mapError .unread) l.log
  let (doc, log) := GrammarDoc.ofGrammar g
  Work.report (doc.mapError .undocumented) log

/-- the file in the output directory that is named after a grammar -/
def target (s : Settings) (grammar extension : Text) : Path :=
  s.output.child (Grammar.simpleName grammar ++ "." ++ extension)

def graphExtension : Text := "dot"

/-- write the graph of a grammar, if the settings ask for it and it is not the document itself -/
def writeGraph (s : Settings) (f : Formatter) (doc : GrammarDoc) : Work (Option Path) := do
  if s.graph.enabled && f.cls.extension ≠ graphExtension then
    let (t, log) := f.cls.formatGraph f.options doc
    let t ← Work.report (.ok t) log
    Work.write (target s doc.name graphExtension) t
    return some (target s doc.name graphExtension)
  else return none

def generate (s : Settings) (file : Path) : Work Generated := do
  let f ← formatter s
  let doc ← documentation s file
  Work.makeDirectory s.output
  let (t, log) := f.cls.formatGrammar f.options doc
  let t ← Work.report (t.mapError fun u => .unformatted (.unprintable u)) log
  Work.write (target s doc.name f.cls.extension) t
  let graph ← writeGraph s f doc
  Work.report (.ok ⟨doc.name, doc.entries.length, target s doc.name f.cls.extension, graph⟩)
    [.documented doc.name doc.entries.length s.output]

def graph (s : Settings) (file : Path) : Work Text := do
  let f ← formatter s
  let doc ← documentation s file
  let (t, log) := f.cls.formatGraph f.options doc
  Work.report (.ok t) log

def rule (s : Settings) (file : Path) (name : Text) : Work Text := do
  let f ← formatter s
  let doc ← documentation s file
  match doc.find? name with
  | none => throw (.noRule doc.name name (doc.entries.map Entry.name))
  | some d => Work.report ((f.cls.formatRule f.options (.doc d) doc.mapping).mapError .unformatted) []

end Generation

end Rulebook
