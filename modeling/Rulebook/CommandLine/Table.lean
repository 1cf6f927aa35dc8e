/-
Tables on a screen of 80 columns. A table has a title in the middle of the screen, a heavy head and a light body. Its
columns are as wide as their widest cell, except the last one, which takes what is left and breaks its cells between
words.
-/
import Rulebook.Text.Blank

namespace Rulebook.CommandLine

def screenWidth : Nat := 80

def dashes (c : CodePoint) (count : Nat) : Text :=
  List.replicate count c

def padRight (width : Nat) (t : Text) : Text :=
  t ++ dashes ' ' (width - t.length)

/-- a text with blanks around it up to a width; an odd blank goes behind it -/
def centred (width : Nat) (t : Text) : Text :=
  padRight width (dashes ' ' ((width - t.length) / 2) ++ t)

/-- words on lines of a width, behind the words already on the line -/
def breakWords (width : Nat) (line : Text) : List Text → List Text
  | [] => [line]
  | w :: ws =>
    if line = [] then breakWords width w ws
    else if line.length + 1 + w.length ≤ width then breakWords width (line ++ " " ++ w) ws
    else line :: breakWords width w ws

def brokenText (width : Nat) (t : Text) : List Text :=
  breakWords width [] t.words

/-- a line between rows: the parts from left to right, and the stroke between them -/
def rule (left middle right stroke : CodePoint) (widths : List Nat) : Text :=
  left :: Text.join [middle] (widths.map fun w => dashes stroke (w + 2)) ++ [right]

def cells (bar : CodePoint) (widths : List Nat) (texts : List Text) : Text :=
  bar :: ((widths.zip texts).flatMap fun (w, t) => " " ++ padRight w t ++ " " ++ [bar])

/-- the lines of a row whose last cell is broken -/
def rowLines (bar : CodePoint) (first second last : Nat) (row : Text × Text × Text) : List Text :=
  match brokenText last row.2.2 with
  | [] => []
  | line :: lines =>
    cells bar [first, second, last] [row.1, row.2.1, line] ::
      lines.map fun more => cells bar [first, second, last] [[], [], more]

def table (title : Text) (head : Text × Text × Text) (rows : List (Text × Text × Text)) : Text :=
  let widest := fun (column : Text × Text × Text → Text) =>
    (head :: rows).foldl (fun n row => max n (column row).length) 0
  let first := widest Prod.fst
  let second := widest fun row => row.2.1
  let last := screenWidth - (first + second + 10)
  let widths := [first, second, last]
  Text.join "\n" (
    [centred screenWidth title, rule '┏' '┳' '┓' '━' widths] ++ rowLines '┃' first second last head ++
      [rule '┡' '╇' '┩' '━' widths] ++ rows.flatMap (rowLines '│' first second last) ++
      [rule '└' '┴' '┘' '─' widths]) ++ "\n"

end Rulebook.CommandLine
