/-
Head comments: a body of text and the tags behind it. Paragraphs of the body are separated by blank lines; a tag has a
name and a value, and one name may be used for several tags.

The summary is the first sentence of the first paragraph, with its white space evened out. A sentence ends with a full
stop, an exclamation mark or a question mark at the end of the paragraph or before white space.
-/
import Rulebook.Text.Blank

namespace Rulebook

/-- a named remark behind the body of a comment -/
structure Tag where
  name : Text
  value : Text
  deriving DecidableEq, Repr

/-- what is said about a rule or a grammar -/
structure Comment where
  text : Text
  tags : List Tag
  deriving DecidableEq, Repr

namespace Comment

/-- nothing is said -/
def empty : Comment := ⟨[], []⟩

/-- nothing is said -/
def isEmpty (c : Comment) : Bool :=
  c.text.isEmpty && c.tags.isEmpty

/-- the values of the tags of one name, in order -/
def values (c : Comment) (name : Text) : List Text :=
  (c.tags.filter fun t => t.name = name).map Tag.value

/-- the text before the first blank line -/
def firstParagraph : Text → Text
  | [] => []
  | [c] => [c]
  | c :: d :: rest => if c = '\n' ∧ d = '\n' then [] else c :: firstParagraph (d :: rest)

def endsSentence (c : CodePoint) : Bool :=
  c = '.' || c = '!' || c = '?'

/-- a text up to the first mark that ends a sentence, if there is one -/
def sentence? : Text → Option Text
  | [] => none
  | c :: rest =>
    if endsSentence c && (rest.head?.map CodePoint.isBlank).getD true then some [c]
    else (sentence? rest).map (c :: ·)

/-- the first sentence of a line; a mark in the first position ends nothing -/
def firstSentence : Text → Text
  | [] => []
  | c :: rest =>
    match sentence? rest with
    | some more => c :: more
    | none => c :: rest

/-- the first sentence of the first paragraph -/
def summary (c : Comment) : Text :=
  firstSentence (Text.join " " (firstParagraph c.text).words)

end Comment

end Rulebook
