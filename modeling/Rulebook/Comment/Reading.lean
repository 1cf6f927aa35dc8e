/-
Reading a raw comment. The marks around it and one star in front of each line go; trailing white space goes. A line that
begins with `@` and a name starts a tag, and all lines up to the next tag continue its value. The lines of the body, and
those that continue a value, lose the indentation they share and the blank lines around them; inside the body a run of
blank lines counts as one.
-/
import Rulebook.Comment.Basic
import Rulebook.Text.Lines
import Rulebook.Text.Word

namespace Rulebook.Comment

/-- what stands between the marks of a raw comment; a mark that is missing is not missed -/
def inside (raw : Text) : Text :=
  let t := raw.strip
  let opened := ((Text.after? "/**" t).or (Text.after? "/*" t)).getD t
  if opened.endsWith "*/" then opened.take (opened.length - 2) else opened

/-- a line without its leading star, the blank behind the star, and trailing white space -/
def plainLine (line : Text) : Text :=
  match line.stripLeft with
  | [] => line.stripRight
  | c :: rest =>
    if c = '*' then Text.stripRight ((Text.after? " " rest).getD rest) else line.stripRight

def plainLines (raw : Text) : List Text :=
  (inside raw).lines.map plainLine

def isTagPart (c : CodePoint) : Bool :=
  c.isWord || c = '-'

/-- the tag that a line starts: its name and the part of its value on the line -/
def tagLine? (line : Text) : Option (Text × Text) :=
  match line.strip with
  | at_ :: c :: rest =>
    if at_ = '@' ∧ c.isLetter then
      some (c :: rest.takeWhile isTagPart, Text.strip (rest.dropWhile isTagPart))
    else none
  | _ => none

/-- the lines before the first tag -/
def bodyLines (lines : List Text) : List Text :=
  lines.takeWhile fun l => (tagLine? l).isNone

/-- the tags of some lines: name, first line of the value, and the lines that continue it -/
def tagBlocks : List Text → List (Text × Text × List Text)
  | [] => []
  | l :: ls =>
    match tagLine? l with
    | none => tagBlocks ls
    | some (name, first) => (name, first, bodyLines ls) :: tagBlocks ls

/-- lines without shared indentation and without blank lines at either end -/
def block (lines : List Text) : List Text :=
  (((Text.dedent lines).dropWhile List.isEmpty).reverse.dropWhile List.isEmpty).reverse

/-- lines with one blank line in the stead of several -/
def singleBlanks : List Text → List Text
  | [] => []
  | [l] => [l]
  | l :: m :: rest => if l = [] ∧ m = [] then singleBlanks (m :: rest) else l :: singleBlanks (m :: rest)

def bodyText (lines : List Text) : Text :=
  Text.strip (Text.join "\n" (singleBlanks (block lines)))

/-- a tag with the lines that continue its value -/
def tagOf (name first : Text) (more : List Text) : Tag :=
  ⟨name, Text.join "\n" ([first, Text.join "\n" (block more)].filter fun part => !part.isEmpty)⟩

def ofRaw (raw : Text) : Comment :=
  let ls := plainLines raw
  ⟨bodyText (bodyLines ls), (tagBlocks ls).map fun (name, first, more) => tagOf name first more⟩

/-- the comment of something that may have none -/
def ofRaw? : Option Text → Comment
  | none => empty
  | some raw => ofRaw raw

end Rulebook.Comment
