/-
Where a message points. A place names a file, a line and a column, how many code points are underlined, and, when they
are known, the grammar and the lines around the place. `Place.report` lays all of it out above the message: the
location, the lines with their numbers, and a marker below the line that is meant.

The lines around a place are cut at every line boundary, while line numbers count line feeds only; a text with other
line boundaries shows the lines that happen to stand there.
-/
import Rulebook.Text.Lines
import Rulebook.Files.Path

namespace Rulebook

structure Place where
  file : Path
  line : Int
  column : Int
  length : Int
  snippet : Option Text
  grammar : Option Text
  deriving DecidableEq, Repr

/-- part of a list from an index up to an end; a negative end counts from the end of the list -/
def sliceTo {α : Type} (first : Nat) (stop : Int) (l : List α) : List α :=
  let last := if stop < 0 then (l.length + stop).toNat else stop.toNat
  (l.take last).drop first

/-- the lines of a text up to `around` lines away from a line -/
def snippetAround (source : Text) (line around : Int) : Text :=
  let ls := source.lines
  let first := max 1 (line - around)
  let last := min (ls.length : Int) (line + around)
  Text.join "\n" (sliceTo (first - 1).toNat last ls)

/-- the lines shown with a message: two before and two after -/
def snippetAt (source : Text) (line : Int) : Text :=
  snippetAround source line 2

namespace Place

/-- `count` copies of a code point, none for a negative count -/
def repeated (c : CodePoint) (count : Int) : Text :=
  List.replicate count.toNat c

/-- the number that stands before a line of the snippet -/
def gutter (number : Int) : Text :=
  Text.padLeft 4 (Text.ofInt number) ++ " | "

/-- one line of the snippet, with the marker below it when it is the line of the place -/
def numbered (p : Place) (number : Int) (line : Text) : List Text :=
  let written := gutter number ++ line
  if number = p.line then
    [written, repeated ' ' ((gutter number).length + p.column - 1) ++ repeated '^' (max p.length 1)]
  else [written]

/-- the lines of the snippet, numbered from two lines before the place -/
def numberedFrom (p : Place) (number : Int) : List Text → List Text
  | [] => []
  | line :: more => numbered p number line ++ numberedFrom p (number + 1) more

/-- file, line and column, and the grammar when its name is not empty -/
def location (p : Place) : Text :=
  let spot := p.file.text ++ ":" ++ Text.ofInt p.line ++ ":" ++ Text.ofInt p.column
  match p.grammar with
  | some (c :: name) => spot ++ " in grammar " ++ (c :: name)
  | _ => spot

/-- the location and, when there is one, the snippet -/
def layout (p : Place) : Text :=
  match p.snippet with
  | some (c :: t) =>
    p.location ++ "\n" ++
      Text.join "\n" (p.numberedFrom (max 1 (p.line - 2)) (Text.splitOn '\n' (c :: t)))
  | _ => p.location

/-- a message below the place it is about -/
def report (p : Place) (message : Text) : Text :=
  p.layout ++ "\n" ++ message

end Place

end Rulebook
