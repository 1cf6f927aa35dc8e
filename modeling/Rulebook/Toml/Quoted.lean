/-
Texts in TOML. Double quotes allow escapes, single quotes take everything as it stands. Three quotes open a text of
several lines: a line feed right behind them does not count, a backslash at the end of a line joins it with the next
text, and one or two quotes may stand right before the closing three.
-/
import Rulebook.Toml.Basic

namespace Rulebook.Toml

def hexDigit? (c : CodePoint) : Option Nat :=
  if c.inRanges [(0x30, 0x39)] then some (c.val - 0x30)
  else if c.inRanges [(0x41, 0x46)] then some (c.val - 0x41 + 10)
  else if c.inRanges [(0x61, 0x66)] then some (c.val - 0x61 + 10)
  else none

def letterEscape? (c : CodePoint) : Option CodePoint :=
  if c = 'b' then some '\x08'
  else if c = 't' then some '\t'
  else if c = 'n' then some '\n'
  else if c = 'f' then some '\x0c'
  else if c = 'r' then some '\r'
  else if c = '"' ∨ c = '\\' then some c
  else none

/-- the code point with this number, if it stands for a character -/
def scalar? (n : Nat) : Option CodePoint :=
  (CodePoint.ofNat? n).filter fun c => !c.isSurrogate

/-- the code point whose number some digits make, if there are `count` of them -/
def byNumber? (count : Nat) (digits : Text) : Option CodePoint := do
  let values ← digits.mapM hexDigit?
  if values.length = count then scalar? (values.foldl (fun n d => 16 * n + d) 0) else none

/-- a code point by its number in `count` digits -/
def numberEscape (count : Nat) (s : Text) : Reading Text false s :=
  (takeUpTo count s).next fun digits rest _ => accept ((byNumber? count digits).map fun c => [c]) rest

/-- blanks and a line end, with the white space behind it; none of it counts -/
def lineContinuation (s : Text) : Reading Text false s :=
  (blanks s).next fun _ rest _ =>
  match rest with
  | [] => .nothing [] []
  | c :: rest => if c = '\n' then (takeWhile isGap (c :: rest)).map fun _ => [] else refuse

/-- what is meant by the text behind a backslash -/
def escape (severalLines : Bool) (s : Text) : Reading Text false s :=
  match s with
  | [] => refuse
  | c :: rest =>
    if c = 'u' then (numberEscape 4 rest).behind.loose
    else if c = 'U' then (numberEscape 8 rest).behind.loose
    else
      match letterEscape? c with
      | some d => .ok ((Step.first c rest).loose.map fun _ => [d])
      | none => if severalLines then lineContinuation (c :: rest) else refuse

/-- a code point that may not stand in quotes -/
def isBarred (severalLines : Bool) (c : CodePoint) : Bool :=
  isControl c && !(severalLines && c = '\n')

/-- the quotes that open a text behind the first one, and close it behind the first closing one -/
def moreQuotes (quote : CodePoint) (severalLines : Bool) : Text :=
  if severalLines then [quote, quote] else []

/-- a text up to its closing quotes, and these; double quotes allow escapes -/
def inQuotes (quote : CodePoint) (severalLines : Bool) (s : Text) : Reading Text true s :=
  let more := moreQuotes quote severalLines
  match s with
  | [] => refuse
  | c :: rest =>
    if c = quote ∧ rest.take more.length = more then ((takeUpTo more.length rest).map fun _ => []).behind
    else if c = '\\' ∧ quote = '"' then
      ((escape severalLines rest).next fun t behind _ =>
        (inQuotes quote severalLines behind).map (t ++ ·)).behind
    else if isBarred severalLines c then refuse
    else ((inQuotes quote severalLines rest).map (c :: ·)).behind
termination_by s.length

/-- the quotes right behind the closing ones that still belong to the text, two at most -/
def extraQuotes (quote : CodePoint) (s : Text) : Reading Text false s :=
  takeUpTo ((s.take 2).takeWhile fun c => c = quote).length s

/-- a line feed right behind the opening quotes, which does not count -/
def lineFeedHere (s : Text) : Reading Text false s :=
  takeUpTo (if s.head? = some '\n' then 1 else 0) s

/-- a text of several lines behind the first of its opening quotes -/
def severalLines (quote : CodePoint) (s : Text) : Reading Text true s :=
  (takeUpTo (moreQuotes quote true).length s).next fun _ opened _ =>
  (lineFeedHere opened).next fun _ inside _ =>
  (inQuotes quote true inside).next fun t closed _ =>
  (extraQuotes quote closed).map fun extra => t ++ extra

def isQuote (c : CodePoint) : Bool :=
  c = '"' || c = '\''

def quotedLine (s : Text) : Reading Text true s :=
  (take s).next fun quote rest _ => if isQuote quote then inQuotes quote false rest else refuse

def quoted (s : Text) : Reading Text true s :=
  (take s).next fun quote rest _ =>
    if isQuote quote then
      if rest.take 2 = moreQuotes quote true then severalLines quote rest else inQuotes quote false rest
    else refuse

end Rulebook.Toml
