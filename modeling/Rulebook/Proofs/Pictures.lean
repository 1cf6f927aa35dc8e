/-
What the text of a graph shows. A picture is a name, a direction, nodes and edges; a node has a name and the kind of
rule it stands for, or stands for an entry that is not supported. The text of a graph is that of its picture, and a
picture is decoded from its text, whatever its names hold: quotes, backslashes and line feeds included.

A decoder takes what it knows off the front of a text. `Decodes d t a` says that in front of any text `d` takes `t` for
`a`; this is kept by putting decoders and texts one after the other, so every part of a graph is told by itself.

- `decodes_quotedName`: a name ends at the quote behind it and nowhere before;
- `ofText?_text`: a picture is decoded from its text;
- `graph_eq_text`: the text of a graph is that of its picture;
- `graph_text_determines_picture`: two graphs have one text exactly when they have one picture.
-/
import Rulebook.Proofs.Sections

namespace Rulebook

/-! ## Pictures -/

inductive NodeMark where
  | parser
  | terminal
  | enumeration
  | unsupported
  deriving DecidableEq, Repr

namespace NodeMark

def all : List NodeMark := [.parser, .terminal, .enumeration, .unsupported]

/-- how the statement of a node ends behind its label -/
def ending : NodeMark → Text
  | .parser => ", shape=" ++ Text.ofString "box" ++ "];"
  | .terminal => ", shape=" ++ Text.ofString "ellipse" ++ "];"
  | .enumeration => ", shape=" ++ Text.ofString "hexagon" ++ "];"
  | .unsupported => ", color=red];  // unsupported rule kind"

end NodeMark

/-- what one statement draws -/
inductive Stroke where
  | node (name : Text) (mark : NodeMark)
  | edge (e : Edge)
  deriving DecidableEq, Repr

/-- how the statement of an edge ends behind its target -/
def Edge.ending (external : Bool) : Text := if external then " [style=dashed];" else ";"

namespace Stroke

def sign (isEdge : Bool) : Text := if isEdge then " -> " else " [label="

def text : Stroke → Text
  | node name mark => quoteName name ++ (sign false ++ (quoteName name ++ mark.ending))
  | edge e => quoteName e.source ++ (sign true ++ (quoteName e.target ++ Edge.ending e.external))

def line (s : Stroke) : Text := "    " ++ (s.text ++ Text.ofString "\n")

def node? : Stroke → Option (Text × NodeMark)
  | node name mark => some (name, mark)
  | edge _ => none

def edge? : Stroke → Option Edge
  | node _ _ => none
  | edge e => some e

end Stroke

structure Picture where
  name : Text
  direction : Direction
  nodes : List (Text × NodeMark)
  edges : List Edge
  deriving DecidableEq, Repr

namespace Picture

/-- the strokes of a picture: its nodes, then its edges -/
def strokes (p : Picture) : List Stroke := p.nodes.map (fun n => .node n.1 n.2) ++ p.edges.map .edge

def text (p : Picture) : Text :=
  "digraph " ++ (quoteName p.name ++ (" \x7b\n    rankdir=" ++ (p.direction.text ++ (";\n" ++
    (p.strokes.flatMap Stroke.line ++ "\x7d\n")))))

theorem nodes_strokes (p : Picture) : p.strokes.filterMap Stroke.node? = p.nodes := by
  simp [strokes, List.filterMap_append, List.filterMap_map, Function.comp_def, Stroke.node?]

theorem edges_strokes (p : Picture) : p.strokes.filterMap Stroke.edge? = p.edges := by
  simp [strokes, List.filterMap_append, List.filterMap_map, Function.comp_def, Stroke.edge?]

end Picture

/-! ## Decoders -/

/-- what takes a value off the front of a text, if the text begins with one -/
abbrev Decoder (α : Type) := StateT Text Option α

/-- in front of any text, the decoder takes `t` for `a` -/
def Decodes {α : Type} (d : Decoder α) (t : Text) (a : α) : Prop := ∀ rest, d (t ++ rest) = some (a, rest)

namespace Decoder

/-- a text that has to stand here -/
def expect (t : Text) : Decoder Unit := fun s => (Text.after? t s).map ((), ·)

/-- the first of some values whose text stands here -/
def oneOf {α : Type} (text : α → Text) (values : List α) : Decoder α := fun s =>
  values.findSome? fun a => (Text.after? (text a) s).map (a, ·)

/-- a code point in front of what has been read -/
def push (c : CodePoint) : Text × Text → Text × Text := fun (name, behind) => (c :: name, behind)

/-- the name inside quotes that have been opened, up to the quote that closes them. An escaped code point stands for
itself, and a backslash escapes the one behind it. -/
def nameInside (escaped : Bool) : Text → Option (Text × Text)
  | [] => none
  | c :: rest =>
    if escaped then (nameInside false rest).map (push c)
    else if c = '"' then some ([], rest)
    else if c = '\\' then nameInside true rest
    else (nameInside false rest).map (push c)

def quotedName : Decoder Text := do
  expect "\""
  nameInside false

/-- one after the other up to where `stop` stands -/
def upTo {α : Type} (stop : Text) (d : Decoder α) (t : Text) : Option (List α × Text) :=
  match Text.after? stop t with
  | some rest => some ([], rest)
  | none =>
    match d t with
    | none => none
    | some (a, rest) =>
      if rest.length < t.length then (upTo stop d rest).map fun (as, behind) => (a :: as, behind) else none
termination_by t.length

def stroke : Decoder Stroke := do
  let name ← quotedName
  let isEdge ← oneOf Stroke.sign [true, false]
  let second ← quotedName
  if isEdge then return .edge ⟨name, second, ← oneOf Edge.ending [true, false]⟩
  else return .node name (← oneOf NodeMark.ending NodeMark.all)

def line : Decoder Stroke := do
  expect "    "
  let s ← stroke
  expect "\n"
  return s

def picture : Decoder Picture := do
  expect "digraph "
  let name ← quotedName
  expect " \x7b\n    rankdir="
  let direction ← oneOf Direction.text Direction.all
  expect ";\n"
  let strokes ← upTo "\x7d\n" line
  return ⟨name, direction, strokes.filterMap Stroke.node?, strokes.filterMap Stroke.edge?⟩

end Decoder

/-- the picture that a text shows, if it is the text of a graph -/
def Picture.ofText? (t : Text) : Option Picture :=
  match Decoder.picture t with
  | some (p, []) => some p
  | _ => none

/-! ## Decoding what was written -/

namespace Decodes

open Decoder

variable {α β : Type}

/-- decoders one after the other take texts one after the other -/
theorem bind {d : Decoder α} {f : α → Decoder β} {t u : Text} {a : α} {b : β} (h : Decodes d t a)
    (hf : Decodes (f a) u b) : Decodes (d >>= f) (t ++ u) b := by
  intro rest
  have hfirst : d (t ++ (u ++ rest)) = some (a, u ++ rest) := h _
  rw [List.append_assoc]
  show (d (t ++ (u ++ rest))).bind (fun p => f p.1 p.2) = some (b, rest)
  rw [hfirst]
  exact hf rest

/-- what is read last is put into the result -/
theorem map {d : Decoder α} {t : Text} {a : α} (h : Decodes d t a) (f : α → β) :
    Decodes (d >>= fun a => pure (f a)) t (f a) := by
  have hpure : Decodes (pure (f a) : Decoder β) [] (f a) := fun _ => rfl
  have hboth := h.bind (f := fun a => pure (f a)) hpure
  rwa [List.append_nil] at hboth

/-- what is decoded from the front of a text, and what is left of it, do not depend on how the text was put together -/
theorem unique {d : Decoder α} {t u rest behind : Text} {a b : α} (ht : Decodes d t a) (hu : Decodes d u b)
    (h : t ++ rest = u ++ behind) : a = b ∧ rest = behind := by
  have hsame : some (a, rest) = some (b, behind) := by rw [← ht rest, ← hu behind, h]
  exact Prod.mk.inj (Option.some.inj hsame)

end Decodes

namespace Decoder

theorem after?_append (t rest : Text) : Text.after? t (t ++ rest) = some rest := by
  induction t with
  | nil => rfl
  | cons c t ih => simpa [Text.after?] using ih

theorem decodes_expect (t : Text) : Decodes (expect t) t () := by
  intro rest
  rw [expect, after?_append]
  rfl

/-- what a point of a name is written as is read as that point -/
theorem nameInside_namePoint (c : CodePoint) (t : Text) :
    nameInside false (namePoint c ++ t) = (nameInside false t).map (push c) := by
  unfold namePoint
  split
  · next h => subst h; rfl
  · next hescape =>
    split
    · next h => subst h; rfl
    · next hquote => rw [List.singleton_append, nameInside, if_neg Bool.false_ne_true, if_neg hquote, if_neg hescape]

/-- a name is read up to the quote that closes it -/
theorem nameInside_append (name rest : Text) :
    nameInside false (name.flatMap namePoint ++ CodePoint.ofChar '"' :: rest) = some (name, rest) := by
  induction name with
  | nil => rfl
  | cons c name ih =>
    rw [List.flatMap_cons, List.append_assoc, nameInside_namePoint, ih]
    rfl

/-- a name ends at the quote behind it and nowhere before -/
theorem decodes_quotedName (name : Text) : Decodes quotedName (quoteName name) name := by
  have hinside : Decodes (nameInside false) (name.flatMap namePoint ++ Text.ofString "\"") name := by
    intro rest
    rw [List.append_assoc]
    exact nameInside_append name rest
  have hquoted := (decodes_expect (Text.ofString "\"")).bind (f := fun _ => nameInside false) hinside
  rwa [← List.append_assoc] at hquoted

theorem decodes_mark (mark : NodeMark) : Decodes (oneOf NodeMark.ending NodeMark.all) mark.ending mark := by
  intro rest
  cases mark <;> rfl

theorem decodes_ending (external : Bool) : Decodes (oneOf Edge.ending [true, false]) (Edge.ending external) external := by
  intro rest
  cases external <;> rfl

theorem decodes_sign (isEdge : Bool) : Decodes (oneOf Stroke.sign [true, false]) (Stroke.sign isEdge) isEdge := by
  intro rest
  cases isEdge <;> rfl

theorem decodes_direction (direction : Direction) :
    Decodes (oneOf Direction.text Direction.all) direction.text direction := by
  intro rest
  cases direction <;> rfl

/-- nodes and edges are told apart behind the first name -/
theorem decodes_stroke (s : Stroke) : Decodes stroke s.text s := by
  cases s with
  | node name mark =>
    exact (decodes_quotedName name).bind ((decodes_sign false).bind
      ((decodes_quotedName name).bind ((decodes_mark mark).map (Stroke.node name))))
  | edge e =>
    exact (decodes_quotedName e.source).bind ((decodes_sign true).bind
      ((decodes_quotedName e.target).bind ((decodes_ending e.external).map fun external =>
        Stroke.edge ⟨e.source, e.target, external⟩)))

theorem decodes_line (s : Stroke) : Decodes line s.line s :=
  (decodes_expect _).bind ((decodes_stroke s).bind ((decodes_expect _).map fun _ => s))

/-- texts one after the other are decoded one by one, as long as none begins like what ends them -/
theorem decodes_upTo {α : Type} {stop : Text} {d : Decoder α} {text : α → Text} (h : ∀ a, Decodes d (text a) a)
    (hstop : ∀ a rest, Text.after? stop (text a ++ rest) = none) (as : List α) :
    Decodes (upTo stop d) (as.flatMap text ++ stop) as := by
  intro rest
  induction as with
  | nil => rw [List.flatMap_nil, List.nil_append, upTo, after?_append]
  | cons a as ih =>
    -- a text that begins like no end is not empty, so what is left is shorter
    have hshorter : (as.flatMap text ++ stop ++ rest).length < (text a ++ (as.flatMap text ++ stop ++ rest)).length := by
      have hne : text a ≠ [] := by
        intro hnil
        have hbegins := hstop a (stop ++ [])
        rw [hnil, List.nil_append, after?_append] at hbegins
        cases hbegins
      have hpos : 0 < (text a).length := List.length_pos_iff.2 hne
      simp only [List.length_append]
      omega
    rw [List.flatMap_cons, List.append_assoc, List.append_assoc, ← List.append_assoc _ stop, upTo, hstop, h]
    simp only [if_pos hshorter, ih, Option.map_some]

theorem decodes_picture (p : Picture) : Decodes picture p.text p := by
  -- a line begins with its margin
  have hstop : ∀ (s : Stroke) rest, Text.after? "\x7d\n" (s.line ++ rest) = none := fun _ _ => rfl
  have hstrokes := (decodes_upTo decodes_line hstop p.strokes).map fun strokes =>
    Picture.mk p.name p.direction (strokes.filterMap Stroke.node?) (strokes.filterMap Stroke.edge?)
  rw [Picture.nodes_strokes, Picture.edges_strokes] at hstrokes
  exact (decodes_expect _).bind ((decodes_quotedName p.name).bind ((decodes_expect _).bind
    ((decodes_direction p.direction).bind ((decodes_expect _).bind hstrokes))))

end Decoder

namespace Picture

/-- a picture is decoded from its text -/
theorem ofText?_text (p : Picture) : ofText? p.text = some p := by
  have hwhole := Decoder.decodes_picture p []
  rw [List.append_nil] at hwhole
  rw [ofText?, hwhole]

theorem text_injective : Function.Injective text := by
  intro p q h
  exact Option.some.inj (by rw [← ofText?_text p, ← ofText?_text q, h])

end Picture

/-! ## The picture of a grammar -/

/-- the node of an entry: the name of a rule with its kind, or what describes an entry that is not supported -/
def Entry.drawnNode : Entry → Text × NodeMark
  | e@(.doc d) =>
    match d.variant with
    | .parser => (d.name, .parser)
    | .terminal => (d.name, .terminal)
    | .enumeration => (d.name, .enumeration)
    | .reference => (e.describe, .unsupported)
  | e@(.foreign _) => (e.describe, .unsupported)

/-- what the graph of a grammar shows -/
def GrammarDoc.picture (o : Options) (g : GrammarDoc) : Picture where
  name := Grammar.simpleName g.name
  direction := o.direction
  nodes := g.entries.map Entry.drawnNode
  edges := Edge.chosen o g.edges

theorem Edge.statement_eq (e : Edge) : e.statement = (Stroke.edge e).text := by
  obtain ⟨source, target, external⟩ := e
  cases external <;> simp [Edge.statement, Stroke.text, Stroke.sign, Edge.ending]

theorem RuleDoc.node_eq {d : RuleDoc} (h : d.variant ≠ .reference) :
    d.node = .ok (Stroke.node (Entry.doc d).drawnNode.1 (Entry.doc d).drawnNode.2).text := by
  obtain ⟨label, variant, rule, comment⟩ := d
  cases variant with
  | reference => exact absurd rfl h
  | parser => simp [RuleDoc.node, RuleDoc.shape, Entry.drawnNode, Stroke.text, Stroke.sign, NodeMark.ending]
  | terminal => simp [RuleDoc.node, RuleDoc.shape, Entry.drawnNode, Stroke.text, Stroke.sign, NodeMark.ending]
  | enumeration => simp [RuleDoc.node, RuleDoc.shape, Entry.drawnNode, Stroke.text, Stroke.sign, NodeMark.ending]

theorem Entry.drawnNode_unsupported {e : Entry} (h : ¬ e.Supported) : e.drawnNode = (e.describe, .unsupported) := by
  cases e with
  | foreign c => rfl
  | doc d =>
    obtain ⟨label, variant, rule, comment⟩ := d
    obtain rfl : variant = .reference := not_not.1 h
    rfl

/-- an entry is drawn as its node -/
theorem Entry.drawn_node (e : Entry) (m : Mapping) : (e.drawn m).1 = (Stroke.node e.drawnNode.1 e.drawnNode.2).text := by
  by_cases h : e.Supported
  · obtain ⟨d, rfl, hvariant⟩ := h.exists_doc
    rw [Entry.drawn, Entry.drawing, Entry.edges, references_doc hvariant, Entry.node, RuleDoc.node_eq hvariant]
  · rw [Entry.drawn, drawing_unsupported h, Entry.drawnNode_unsupported h]
    simp [Entry.failedNode, Stroke.text, Stroke.sign, NodeMark.ending]

/-- the text of a graph is that of its picture -/
theorem GrammarDoc.graph_eq_text (o : Options) (g : GrammarDoc) : g.graph o = (g.picture o).text := by
  have hstatements : g.nodes ++ (Edge.chosen o g.edges).map Edge.statement =
      (g.picture o).strokes.map Stroke.text := by
    rw [nodes_eq_drawn, picture, Picture.strokes, List.map_append, List.map_map, List.map_map, List.map_map]
    exact congrArg₂ _ (List.map_congr_left fun e _ => e.drawn_node g.mapping)
      (List.map_congr_left fun e _ => e.statement_eq)
  rw [GrammarDoc.graph, hstatements, Text.join_concat, List.flatMap_append, List.map_map, List.flatMap_map]
  simp only [List.flatMap_cons, List.flatMap_nil, List.append_assoc, List.nil_append, Function.comp_apply, Picture.text]
  rfl

theorem GrammarDoc.ofText?_graph (o : Options) (g : GrammarDoc) : Picture.ofText? (g.graph o) = some (g.picture o) := by
  rw [g.graph_eq_text, Picture.ofText?_text]

/-- **The text of a graph determines what it shows**, whatever the names hold. It is decoded to the simple name of the
grammar, the direction, the nodes and the edges that are drawn, so two graphs have one text exactly when they agree in
these; a node is a name with a kind of rule, or what describes an entry that is not supported, marked as such. No name
breaks out of its quotes: of two texts that each begin with a name in quotes, equal ones begin with the same name and go
on in the same way. -/
theorem graph_text_determines_picture (o o' : Options) (g g' : GrammarDoc) :
    Picture.ofText? (g.graph o) =
      some ⟨Grammar.simpleName g.name, o.direction, g.entries.map Entry.drawnNode, Edge.chosen o g.edges⟩ ∧
    (g.graph o = g'.graph o' ↔ Grammar.simpleName g.name = Grammar.simpleName g'.name ∧ o.direction = o'.direction ∧
      g.entries.map Entry.drawnNode = g'.entries.map Entry.drawnNode ∧
      Edge.chosen o g.edges = Edge.chosen o' g'.edges) ∧
    ∀ name name' rest rest', quoteName name ++ rest = quoteName name' ++ rest' ↔ name = name' ∧ rest = rest' := by
  refine ⟨g.ofText?_graph o, ?_, fun name name' rest rest' => ⟨?_, ?_⟩⟩
  · rw [g.graph_eq_text, g'.graph_eq_text, Picture.text_injective.eq_iff, GrammarDoc.picture, GrammarDoc.picture,
      Picture.mk.injEq]
  · exact (Decoder.decodes_quotedName name).unique (Decoder.decodes_quotedName name')
  · rintro ⟨rfl, rfl⟩
    rfl

end Rulebook
