/-
Formatters. A formatter class turns a grammar document, its graph or one rule into text under the options it is made
with; it knows the extension of the files it makes and may say what it does. Three classes are built in.
-/
import Rulebook.Document.Markdown
import Rulebook.Document.PlainText

namespace Rulebook

/-- a class of formatters by what it does -/
structure FormatterClass where
  name : Text
  about : Option Text
  extension : Text
  formatGrammar : Options → GrammarDoc → Except Unprintable Text × Log
  formatGraph : Options → GrammarDoc → Text × Log
  formatRule : Options → Entry → Mapping → Except FormatError Text

/-- a formatter: a class and the options it is made with -/
structure Formatter where
  cls : FormatterClass
  options : Options

namespace GrammarDoc

/-- the graph of a grammar and what the log hears -/
def drawn (o : Options) (g : GrammarDoc) : Text × Log :=
  (g.graph o, g.drawingLog)

end GrammarDoc

namespace FormatterClass

def markdown : FormatterClass where
  name := "MarkdownFormatter"
  about := some "Formats grammar documentation as Markdown."
  extension := "md"
  formatGrammar := Markdown.formatGrammar
  formatGraph := GrammarDoc.drawn
  formatRule := Markdown.formatRule

def plainText : FormatterClass where
  name := "PlainTextFormatter"
  about := some "Formats grammar documentation as plain text with underlined headings."
  extension := "txt"
  formatGrammar := PlainText.formatGrammar
  formatGraph := GrammarDoc.drawn
  formatRule := PlainText.formatRule

/-- the graph itself; the statements of a rule stand on lines of their own -/
def dot : FormatterClass where
  name := "DotFormatter"
  about := some "Formats grammar documentation as a Graphviz digraph."
  extension := "dot"
  formatGrammar := fun o g => (.ok (g.graph o), g.drawingLog)
  formatGraph := GrammarDoc.drawn
  formatRule := fun o e m =>
    match e.statements o m with
    | .error u => .error (.unsupported u)
    | .ok statements => .ok (Text.join "\n" statements ++ "\n")

end FormatterClass

end Rulebook
