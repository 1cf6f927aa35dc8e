/-
Lines. A text is cut at every line boundary that Unicode knows, CR LF counting as one; a text that ends in a break has
no empty last line. `indent` and `dedent` work on lines: indenting leaves lines of white space alone, dedenting removes
the longest run of blanks and tabs that all other lines begin with.
-/
import Rulebook.Text.Blank

namespace Rulebook

def CodePoint.isLineBreak (c : CodePoint) : Bool :=
  c.inRanges [(0x0A, 0x0D), (0x1C, 0x1E), (0x85, 0x85), (0x2028, 0x2029)]

namespace Text

/-- put a code point before the first of the cut lines -/
def pushFirst (c : CodePoint) : List (Text × Text) → List (Text × Text)
  | [] => [([c], [])]
  | (line, stop) :: more => (c :: line, stop) :: more

/-- the lines of a text, each with the break that ends it (empty at the end of a text without a final break) -/
def cutLines : Text → List (Text × Text)
  | [] => []
  | [c] => if c.isLineBreak then [([], [c])] else [([c], [])]
  | c :: d :: rest =>
    if c = '\r' ∧ d = '\n' then ([], [c, d]) :: cutLines rest
    else if c.isLineBreak then ([], [c]) :: cutLines (d :: rest)
    else pushFirst c (cutLines (d :: rest))

def lines (t : Text) : List Text :=
  (cutLines t).map Prod.fst

/-- every line that holds more than white space moves to the right by `margin` -/
def indent (margin : Text) (t : Text) : Text :=
  (cutLines t).flatMap fun (line, stop) =>
    if isBlank (line ++ stop) then line ++ stop else margin ++ line ++ stop

/-- a blank or a tab -/
def isIndentation (c : CodePoint) : Bool :=
  c = ' ' || c = '\t'

/-- the longest common beginning of two texts -/
def commonStart : Text → Text → Text
  | a :: as, b :: bs => if a = b then a :: commonStart as bs else []
  | _, _ => []

/-- the indentation shared by all lines that hold more than blanks and tabs, if there is such a line -/
def margin? (ls : List Text) : Option Text :=
  (ls.filter fun l => !l.all isIndentation).foldl
    (fun acc l =>
      let own := l.takeWhile isIndentation
      match acc with
      | none => some own
      | some m => some (commonStart m own))
    none

/-- remove the shared indentation; a line of blanks and tabs becomes empty -/
def dedent (ls : List Text) : List Text :=
  let margin := (margin? ls).getD []
  ls.map fun l => if l.all isIndentation then [] else l.drop margin.length

end Text

end Rulebook
