/-
What the log says. Every event worth a line is a value; `Notice.text` is its wording and `Notice.level` its weight.
-/
import Rulebook.Files.Path
import Rulebook.Failure

namespace Rulebook

inductive Level where
  | debug
  | info
  | warning
  deriving DecidableEq, Repr

def Level.text : Level → Text
  | .debug => "DEBUG"
  | .info => "INFO"
  | .warning => "WARNING"

/-- an event that the log records -/
inductive Notice where
  | repeatedRule (grammar rule : Text)
  | unknownRule (line column : Nat) (rule grammar : Text)
  | circularUse (grammar : Text)
  | missingGrammar (grammar : Text)
  | readGrammar (grammar : Text) (rules : Nat)
  | unsupported (grammar : Text) (reason : Unsupported)
  | defaultSettings
  | loadedSettings (file : Path)
  | wrote (file : Path)
  | documented (grammar : Text) (rules : Nat) (directory : Path)
  deriving DecidableEq, Repr

/-- the log, oldest first -/
abbrev Log := List Notice

namespace Notice

def level : Notice → Level
  | repeatedRule _ _ => .warning
  | unknownRule _ _ _ _ => .warning
  | circularUse _ => .warning
  | missingGrammar _ => .warning
  | readGrammar _ _ => .debug
  | unsupported _ _ => .warning
  | defaultSettings => .debug
  | loadedSettings _ => .debug
  | wrote _ => .info
  | documented _ _ _ => .info

def text : Notice → Text
  | repeatedRule grammar rule =>
    "Grammar " ++ grammar ++ " defines rule " ++ rule ++ " more than once; calls link to the first"
  | unknownRule line column rule grammar =>
    Text.ofNat line ++ ":" ++ Text.ofNat column ++ ": rule " ++ rule ++ " not found in grammar " ++ grammar ++
      " or the grammars it uses"
  | circularUse grammar => "Grammar " ++ grammar ++ " uses itself through a cycle; ignoring the cycle"
  | missingGrammar grammar => "Used grammar " ++ grammar ++ " not found; its rules stay unresolved"
  | readGrammar grammar rules => "Read grammar " ++ grammar ++ " with " ++ Text.ofNat rules ++ " rules"
  | unsupported grammar reason => "Grammar " ++ grammar ++ ": " ++ reason.message
  | defaultSettings => "No configuration file found, using defaults"
  | loadedSettings file => "Loaded configuration from " ++ file.text
  | wrote file => "Wrote " ++ file.text
  | documented grammar rules directory =>
    "Documented grammar " ++ grammar ++ " (" ++ Text.ofNat rules ++ " rules) in " ++ directory.text

def line (n : Notice) : Text :=
  n.level.text ++ ": " ++ n.text

end Notice

end Rulebook
