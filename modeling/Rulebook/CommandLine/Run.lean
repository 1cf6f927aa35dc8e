/-
Running a command. A run starts from the files, the wanted weight of the log, and the words of the command line, and
ends with a code, what is on the screen, the files as they are then, and the lines of the log that weigh enough. Code 0
is success, 1 a failure that is told on the screen, 2 a wrong use of the program.

A few failures escape: they are not told on the screen and end the run with code 1 as well.

Nothing but plain text reaches the screen: sequences that would set colours are taken out.
-/
import Rulebook.CommandLine.Arguments
import Rulebook.CommandLine.Table
import Rulebook.Generation
import Rulebook.Settings.File

namespace Rulebook.CommandLine

/-! ## The weight of the log -/

def weight : Level → Nat
  | .debug => 10
  | .info => 20
  | .warning => 30

def weights : List (Text × Nat) :=
  [(Text.ofString "CRITICAL", 50), (Text.ofString "FATAL", 50), (Text.ofString "ERROR", 40), (Text.ofString "WARN", 30),
    (Text.ofString "WARNING", 30), (Text.ofString "INFO", 20), (Text.ofString "DEBUG", 10), (Text.ofString "NOTSET", 0)]

/-- a letter in upper case, as far as the names of weights need it -/
def upperLetter (c : CodePoint) : CodePoint :=
  if c.inRanges [(0x61, 0x7A)] then (CodePoint.ofNat? (c.val - 32)).getD c
  else if c.val = 0x131 then 'I'
  else if c.val = 0x17F then 'S'
  else c

/-- the least weight that is shown: everything for a verbose command, else what is asked for by name, else warnings -/
def threshold (verbose : Bool) (wanted : Option Text) : Nat :=
  if verbose then weight .debug
  else ((wanted.bind fun name => weights.lookup (name.map upperLetter))).getD (weight .warning)

def shown (least : Nat) (l : Log) : Log :=
  l.filter fun n => decide (least ≤ weight n.level)

/-! ## The screen -/

/-- what stands behind a colour sequence that begins here, if one does -/
def behindColour? : Text → Option Text
  | c :: d :: rest =>
    if c.val = 0x1B ∧ d = '[' then
      match rest.dropWhile fun (c : CodePoint) => c = ';' || c = '?' || c.inRanges [(0x30, 0x39)] with
      | e :: behind => if e.inRanges [(0x41, 0x5A), (0x61, 0x7A)] then some behind else none
      | [] => none
    else none
  | _ => none

theorem length_of_behindColour? {t behind : Text} (h : behindColour? t = some behind) : behind.length < t.length := by
  match t with
  | [] => simp [behindColour?] at h
  | [_] => simp [behindColour?] at h
  | c :: d :: rest =>
    simp only [behindColour?] at h
    split at h
    · split at h
      · next e more hm =>
        split at h
        · cases h
          have hle := (List.dropWhile_suffix (l := rest)
            fun (c : CodePoint) => c = ';' || c = '?' || c.inRanges [(0x30, 0x39)]).length_le
          rw [hm] at hle
          simp only [List.length_cons] at hle ⊢
          omega
        · cases h
      · cases h
    · cases h

/-- a text without colour sequences -/
def uncoloured (t : Text) : Text :=
  match t with
  | [] => []
  | c :: rest =>
    match _h : behindColour? (c :: rest) with
    | some behind => uncoloured behind
    | none => c :: uncoloured rest
termination_by t.length
decreasing_by
  · exact length_of_behindColour? _h
  · simp

/-! ## Runs -/

/-- a failure that is not told on the screen -/
inductive Escape where
  | settings (e : SettingsError)
  | generation (e : GenerationError)
  | formatter (f : Failure)
  | screen (fault : Utf8.EncodeFault)
  | unsearchable (file : Path) (fault : SystemFault)
  deriving DecidableEq, Repr

def Escape.message : Escape → Text
  | .settings e => e.message
  | .generation e => e.message
  | .formatter f => f.message
  | .screen fault => fault.report
  | .unsearchable file fault => fault.report file

inductive Ending where
  | code (n : Nat)
  | escaped (e : Escape)
  deriving DecidableEq, Repr

/-- the desk of a command, and its screen: what is printed, and what is told about failures -/
structure Session extends Desk where
  out : Text
  err : Text

abbrev Action (α : Type) := ExceptT Ending (StateM Session) α

structure Run where
  code : Nat
  escaped : Option Escape
  out : Text
  err : Text
  files : FileTree
  log : Log

namespace Action

def print (t : Text) : Action Unit := do
  let plain := uncoloured t
  match Utf8.surrogates? plain with
  | some fault => throw (.escaped (.screen fault))
  | none => modify fun s => { s with out := s.out ++ plain }

/-- tell of a failure and end -/
def fail {α : Type} (headline message : Text) : Action α := do
  modify fun s => { s with err := s.err ++ uncoloured (headline ++ ": " ++ message ++ "\n") }
  throw (.code 1)

/-- the headline over a failure of generation; those without one escape -/
def headline? : GenerationError → Option Text
  | .unread (.syntactic _) => some "Syntax error"
  | .noFormatter (.failed _) => none
  | .unread .unnameable => none
  | .unnameable => none
  | .unencodable _ => none
  | .unformatted (.unprintable _) => none
  | _ => some "Error"

def work {α : Type} (w : Work α) : Action α := do
  let s ← get
  let (result, desk) := w.run.run s.toDesk
  set { s with toDesk := desk }
  match result with
  | .ok a => return a
  | .error e =>
    match headline? e with
    | some headline => fail headline e.message
    | none => throw (.escaped (.generation e))

/-- a failure of settings escapes when the message would not name the file; a refused question about a file escapes from
commands that write documents -/
def escapes (writing : Bool) : SettingsError → Bool
  | .undecodable _ | .tooManyDigits _ | .notSearchable _ | .noLookup _ | .unnameable => true
  | .unsearchable _ _ => writing
  | .notFound _ | .unreadable _ _ | .malformed _ | .invalid _ _ => false

/-- the settings with what the options ask for -/
def chosen (c : Choices) (s : Settings) : Settings :=
  { s with
    formatter := c.format.getD s.formatter
    output := c.output.getD s.output
    searchPaths := c.searchPaths ++ s.searchPaths
    graph :=
      { s.graph with
        enabled := c.graph.getD s.graph.enabled
        deduplicateEdges := c.dedupeEdges || s.graph.deduplicateEdges } }

def settings (writing : Bool) (c : Choices) : Action Settings := do
  let s ← get
  let (result, log) := Settings.load s.files c.config none
  set { s with log := s.log ++ log }
  match result with
  | .ok found => return chosen c found
  | .error e => if escapes writing e then throw (.escaped (.settings e)) else fail "Error" e.message

def doneMark : Text := "✓ "

/-- write the documents of one grammar file and say so -/
def generateOne (s : Settings) (file : Path) : Action Unit := do
  match (← get).files.findsFile file with
  | .error fault => throw (.escaped (.unsearchable file fault))
  | .ok false => fail "Error" ("Grammar file not found: " ++ file.text)
  | .ok true =>
    let done ← work (Generation.generate s file)
    print (doneMark ++ done.grammar ++ ": " ++ Text.ofNat done.rules ++ " rules\n")
    done.written.forM fun p => print ("  " ++ p.text ++ "\n")

/-- write the documents of some grammar files, up to the first failure -/
def generate (files : List Path) (c : Choices) : Action Unit := do
  let s ← settings true c
  files.forM (generateOne s)

/-- write a text to a file of any directory, which is made if it is missing -/
def writeAnywhere (file : Path) (t : Text) : Action Unit := do
  let s ← get
  let (files, problem) := s.files.makeDirectory file.parent
  set { s with files }
  match problem with
  | some (fault, p) => fail "Error" (fault.report p)
  | none =>
    let (files, problem) := files.writeText file t
    set { s with files }
    match problem with
    | some (.refused fault) => fail "Error" (fault.report file)
    | some (.unencodable fault) => throw (.escaped (.generation (.unencodable fault)))
    | none => return ()

/-- print the graph of a grammar file, or write it -/
def graph (file : Path) (c : Choices) : Action Unit := do
  let s ← settings false { c with output := none }
  let t ← work (Generation.graph s file)
  match c.output with
  | none => print t
  | some target =>
    writeAnywhere target t
    print (doneMark ++ "Wrote " ++ target.text ++ "\n")

def rule (file : Path) (name : Text) (c : Choices) : Action Unit := do
  let s ← settings false c
  let t ← work (Generation.rule s file name)
  print t

/-- print the list of formatters; the failure of a class escapes -/
def formats : Action Unit :=
  match Registry.standard.describe with
  | .error f => throw (.escaped (.formatter f))
  | .ok infos =>
    print (table "Formatters" ("Name", "Extension", "Description")
      (infos.map fun info => (info.name, "." ++ info.extension, info.description)))

def ofCommand : Command → Action Unit
  | .generate files c => generate files c
  | .graph file c => graph file c
  | .rule file name c => rule file name c
  | .formats => formats

end Action

def Command.isVerbose : Command → Bool
  | .generate _ c => c.verbose
  | .graph _ c => c.verbose
  | .rule _ _ c => c.verbose
  | .formats => false

def Command.run (files : FileTree) (wanted : Option Text) (c : Command) : Run :=
  let (result, s) := (Action.ofCommand c).run.run ⟨⟨files, []⟩, [], []⟩
  let log := shown (threshold c.isVerbose wanted) s.log
  match result with
  | .ok () => ⟨0, none, s.out, s.err, s.files, log⟩
  | .error (.code n) => ⟨n, none, s.out, s.err, s.files, log⟩
  | .error (.escaped e) => ⟨1, some e, s.out, s.err, s.files, log⟩

/-- what is told about a wrong use of the program -/
def usage : Text := Text.join "\n" ([
  "Usage: generate [options] GRAMMAR...",
  "       graph [options] GRAMMAR",
  "       rule [options] GRAMMAR NAME",
  "       formats",
  ""].map Text.ofString)

/-- run what the words of a command line ask for; `wanted` is the weight of the log that is asked for by name -/
def run (files : FileTree) (wanted : Option Text) (words : List Text) : Run :=
  match Command.ofWords? words with
  | none => ⟨2, none, [], usage, files, []⟩
  | some c => c.run files wanted

end Rulebook.CommandLine
