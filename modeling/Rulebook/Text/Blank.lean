/-
White space in the sense of the Unicode property, with the four information separators counted in. Stripping, splitting
into words and "only white space" all use this one class.
-/
import Rulebook.Text.Basic

namespace Rulebook

/-- white space: the blanks, tabs, line and paragraph ends of every script -/
def CodePoint.isBlank (c : CodePoint) : Bool :=
  c.inRanges [(0x09, 0x0D), (0x1C, 0x20), (0x85, 0x85), (0xA0, 0xA0), (0x1680, 0x1680), (0x2000, 0x200A),
    (0x2028, 0x2029), (0x202F, 0x202F), (0x205F, 0x205F), (0x3000, 0x3000)]

namespace Text

def stripLeft (t : Text) : Text :=
  t.dropWhile CodePoint.isBlank

def stripRight (t : Text) : Text :=
  (t.reverse.dropWhile CodePoint.isBlank).reverse

def strip (t : Text) : Text :=
  stripRight (stripLeft t)

def isBlank (t : Text) : Bool :=
  t.all CodePoint.isBlank

/-- the maximal runs of code points that are not white space -/
def words : Text → List Text
  | [] => []
  | c :: rest =>
    if c.isBlank then words rest
    else match rest with
      | [] => [[c]]
      | d :: _ =>
        if d.isBlank then [c] :: words rest
        else match words rest with
          | [] => [[c]]
          | w :: ws => (c :: w) :: ws

end Text

end Rulebook
