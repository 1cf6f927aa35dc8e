/-
TOML, the parts that all of its readers share: what may go wrong, the classes of code points, and what may stand
between keys and values. A text is refused as a whole; the one refusal that is told apart is a whole number with too
many digits.
-/
import Rulebook.Data.Value
import Rulebook.Reading

namespace Rulebook.Toml

/-- why a text is refused -/
inductive Fault where
  | malformed
  | tooManyDigits (count : Nat)
  deriving DecidableEq, Repr

/-- what is read from the front of a text, or the fault that prevents it -/
abbrev Reading (α : Type) (takes : Bool) (s : Text) :=
  Rulebook.Reading Fault CodePoint α takes s

/-- a key: the names from a table down to a value -/
abbrev Key := List Text

/-- a blank or a tab -/
def isBlank (c : CodePoint) : Bool :=
  c = ' ' || c = '\t'

/-- a blank, a tab or a line feed -/
def isGap (c : CodePoint) : Bool :=
  isBlank c || c = '\n'

/-- a control character other than the tab stands nowhere inside a line -/
def isControl (c : CodePoint) : Bool :=
  (decide (c.val < 0x20) && c ≠ '\t') || decide (c.val = 0x7F)

def isDigit (c : CodePoint) : Bool :=
  c.inRanges [(0x30, 0x39)]

/-- a code point of a key without quotes -/
def isBare (c : CodePoint) : Bool :=
  c.inRanges [(0x30, 0x39), (0x41, 0x5A), (0x61, 0x7A)] || c = '-' || c = '_'

def isInLine (c : CodePoint) : Bool :=
  c ≠ '\n'

def refuse {α : Type} {takes : Bool} {s : Text} : Reading α takes s :=
  .error .malformed

/-- a value that may not have come about, for which nothing is taken -/
def accept {α : Type} (a : Option α) (s : Text) : Reading α false s :=
  match a with
  | none => refuse
  | some a => .nothing a s

def take (s : Text) : Reading CodePoint true s :=
  match s with
  | [] => refuse
  | c :: rest => .ok (.first c rest)

def takeMark (mark : CodePoint) (s : Text) : Reading CodePoint true s :=
  (take s).next fun c rest _ => if c = mark then .nothing c rest else refuse

def takeWhile (p : CodePoint → Bool) (s : Text) : Reading Text false s :=
  .ok (.takeWhile p s)

/-- a number of code points, or all when there are fewer -/
def takeUpTo (count : Nat) (s : Text) : Reading Text false s :=
  .ok (.takeUpTo count s)

def blanks (s : Text) : Reading Text false s :=
  takeWhile isBlank s

/-- what stands behind each of several marks, as many as there are -/
def behindMarks {α : Type} {takes : Bool} (mark : CodePoint) (read : (r : Text) → Reading α takes r) (s : Text) :
    Reading (List α) false s :=
  Reading.behindMarks (fun (c : CodePoint) => c = mark) (fun r _ => read r) s (Nat.le_refl s.length)

/-- a comment behind its mark; the end of the line is left -/
def comment (s : Text) : Reading Text false s :=
  (takeWhile isInLine s).next fun t rest _ => if t.any isControl then refuse else .nothing t rest

/-- white space, line ends and comments -/
def gaps (s : Text) : Reading Unit false s :=
  (takeWhile isGap s).next fun _ rest _ =>
  (behindMarks '#' (fun r => (comment r).next fun _ behind _ => takeWhile isGap behind) rest).map fun _ => ()

/-- CR LF is a line feed -/
def joinLineEnds : Text → Text
  | [] => []
  | [c] => [c]
  | c :: d :: rest =>
    if c = '\r' ∧ d = '\n' then d :: joinLineEnds rest else c :: joinLineEnds (d :: rest)

end Rulebook.Toml
