/-
The graph of a grammar in the DOT language. Every documented rule is a node and every call an edge to the called rule,
dashed when the mapping does not document that rule. With deduplication an edge between two names is drawn once, as it
is drawn first. An object that cannot be drawn becomes a marked node without edges, and the log says why.
-/
import Rulebook.Document.Options
import Rulebook.Document.References

namespace Rulebook

def namePoint (c : CodePoint) : Text :=
  if c = '\\' then "\\\\" else if c = '"' then "\\\"" else [c]

/-- an identifier in the quotes of the DOT language -/
def quoteName (name : Text) : Text :=
  "\"" ++ name.flatMap namePoint ++ "\""

/-- a reference from one rule to another, by their names; an external one leads out of the documented rules -/
structure Edge where
  source : Text
  target : Text
  external : Bool
  deriving DecidableEq, Repr

namespace Edge

def statement (e : Edge) : Text :=
  quoteName e.source ++ " -> " ++ quoteName e.target ++ (if e.external then " [style=dashed];" else ";")

/-- the edges of a list, each pair of names once, where it comes first -/
def distinctFrom (seen : List (Text × Text)) : List Edge → List Edge
  | [] => []
  | e :: es =>
    if (e.source, e.target) ∈ seen then distinctFrom seen es
    else e :: distinctFrom ((e.source, e.target) :: seen) es

def distinct (es : List Edge) : List Edge :=
  distinctFrom [] es

def chosen (o : Options) (es : List Edge) : List Edge :=
  if o.deduplicateEdges then distinct es else es

end Edge

namespace RuleDoc

def shape (d : RuleDoc) : Except Unsupported Text :=
  match d.variant with
  | .parser => .ok "box"
  | .terminal => .ok "ellipse"
  | .enumeration => .ok "hexagon"
  | .reference => .error (.draw (Entry.doc d).describe d.variant.className)

def node (d : RuleDoc) : Except Unsupported Text :=
  match d.shape with
  | .error u => .error u
  | .ok shape => .ok (quoteName d.name ++ " [label=" ++ quoteName d.name ++ ", shape=" ++ shape ++ "];")

end RuleDoc

namespace Entry

/-- the edges of an entry, one per call -/
def edges (e : Entry) (m : Mapping) : Except Unsupported (List Edge) :=
  match e.references with
  | .error u => .error u
  | .ok refs => .ok (refs.map fun r => ⟨e.name, r.name, (m.get? r.id).isNone⟩)

def node : Entry → Except Unsupported Text
  | doc d => d.node
  | foreign c => .error (.draw c c)

def drawing (e : Entry) (m : Mapping) : Except Unsupported (Text × List Edge) :=
  match e.edges m with
  | .error u => .error u
  | .ok edges =>
    match e.node with
    | .error u => .error u
    | .ok node => .ok (node, edges)

def failedNode (e : Entry) : Text :=
  quoteName e.describe ++ " [label=" ++ quoteName e.describe ++ ", color=red];  // unsupported rule kind"

/-- the statements that one entry adds to the graph: its node, then its edges -/
def statements (o : Options) (e : Entry) (m : Mapping) : Except Unsupported (List Text) :=
  match e.drawing m with
  | .error u => .error u
  | .ok (node, edges) => .ok (node :: (Edge.chosen o edges).map Edge.statement)

end Entry

namespace GrammarDoc

def nodes (g : GrammarDoc) : List Text :=
  g.entries.map fun e =>
    match e.drawing g.mapping with
    | .error _ => e.failedNode
    | .ok (node, _) => node

def edges (g : GrammarDoc) : List Edge :=
  g.entries.flatMap fun e =>
    match e.drawing g.mapping with
    | .error _ => []
    | .ok (_, edges) => edges

def drawingLog (g : GrammarDoc) : Log :=
  g.entries.filterMap fun e =>
    match e.drawing g.mapping with
    | .error u => some (.unsupported g.name u)
    | .ok _ => none

def graph (o : Options) (g : GrammarDoc) : Text :=
  let statements := g.nodes ++ (Edge.chosen o g.edges).map Edge.statement
  let opening : List Text :=
    ["digraph " ++ quoteName (Grammar.simpleName g.name) ++ " \x7b", "    rankdir=" ++ o.direction.text ++ ";"]
  let lines := opening ++ statements.map (fun s => Text.ofString "    " ++ s) ++ [Text.ofString "\x7d"]
  Text.join "\n" lines ++ "\n"

end GrammarDoc

end Rulebook
