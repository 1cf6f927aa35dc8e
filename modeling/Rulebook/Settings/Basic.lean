/-
Settings. They name the formatter, where documents go, where used grammars are looked for, whether definitions are
shown, and how the graph is drawn. Paths in a settings file are seen from its directory: `anchored` puts them there.
-/
import Rulebook.Document.Options
import Rulebook.Files.Path

namespace Rulebook

/-- the settings of the graph: whether one is written, whether an edge is drawn once, and which way the graph runs -/
structure GraphSettings where
  enabled : Bool
  deduplicateEdges : Bool
  direction : Direction
  deriving DecidableEq, Repr

/-- what to document and how -/
structure Settings where
  formatter : Text
  output : Path
  searchPaths : List Path
  includeSyntax : Bool
  graph : GraphSettings
  deriving DecidableEq, Repr

namespace Settings

def standard : Settings where
  formatter := "markdown"
  output := "docs/grammar"
  searchPaths := []
  includeSyntax := true
  graph := ⟨true, false, .leftRight⟩

def options (s : Settings) : Options :=
  ⟨s.includeSyntax, s.graph.deduplicateEdges, s.graph.direction⟩

/-- the settings with their paths seen from a directory -/
def anchored (directory : Path) (s : Settings) : Settings :=
  { s with output := directory.join s.output, searchPaths := s.searchPaths.map directory.join }

end Settings

end Rulebook
