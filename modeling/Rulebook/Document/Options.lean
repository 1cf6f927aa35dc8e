/-
What all formatters can be told: whether definitions are shown, whether an edge is drawn once or once per call, and
which way a graph runs.
-/
import Rulebook.Text.Basic

namespace Rulebook

inductive Direction where
  | leftRight
  | topBottom
  | rightLeft
  | bottomTop
  deriving DecidableEq, Repr

namespace Direction

/-- all directions, in the order in which messages name them -/
def all : List Direction := [.leftRight, .topBottom, .rightLeft, .bottomTop]

def text : Direction → Text
  | .leftRight => "LR"
  | .topBottom => "TB"
  | .rightLeft => "RL"
  | .bottomTop => "BT"

def ofText? (t : Text) : Option Direction :=
  all.find? fun d => d.text = t

end Direction

structure Options where
  includeSyntax : Bool
  deduplicateEdges : Bool
  direction : Direction
  deriving DecidableEq, Repr

/-- what a formatter does when it is told nothing -/
def Options.standard : Options := ⟨true, false, .leftRight⟩

end Rulebook
