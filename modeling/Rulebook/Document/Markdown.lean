/-
Markdown pages. A page has a head with what is said about the grammar, a table of contents, and a section for each
rule: its kind and type, its comment, its definition, examples and other tags, and links to the rules it refers to and
to those that refer to it.
-/
import Rulebook.Document.Anchor
import Rulebook.Document.Rendering

namespace Rulebook.Markdown

def cellPoint (c : CodePoint) : Text :=
  if c = '|' then "\\|" else if c = '\n' then " " else [c]

def cell (t : Text) : Text :=
  t.flatMap cellPoint

/-- the tags that have a label of their own, in the order in which they are shown -/
def labels : List (Text × Text) :=
  [(Text.ofString "deprecated", Text.ofString "Deprecated"), (Text.ofString "since", Text.ofString "Since"),
    (Text.ofString "see", Text.ofString "See also")]

/-- the tag whose values are shown as code -/
def exampleTag : Text := "example"

def link (m : Mapping) (d : RuleDoc) : Text :=
  "[" ++ d.name ++ "](#" ++ m.anchor d.rule.id ++ ")"

/-- a link to a rule referred to, or a mark that nothing is known about it -/
def referenceLink (m : Mapping) (r : Reference) : Text :=
  match r.doc with
  | some d => "[" ++ r.target.name ++ "](#" ++ m.anchor d.rule.id ++ ")"
  | none => "`" ++ r.target.name ++ "` _(unresolved reference)_"

def metaLine (kind : Text) (d : RuleDoc) : Text :=
  "_" ++ Text.capitalize kind ++ "_" ++
    (match d.shownType with
      | some t => " returning `" ++ t ++ "`"
      | none => [])

def exampleParts (c : Comment) : List Text :=
  (c.values exampleTag).flatMap fun value => ["**Example:**\n", "```", value, "```\n"]

def labelledParts (c : Comment) : List Text :=
  labels.flatMap fun (name, label) => (c.values name).map fun value => "**" ++ label ++ ":** " ++ value ++ "\n"

def otherParts (c : Comment) : List Text :=
  (c.tags.filter fun t => decide (t.name ≠ exampleTag) && !(labels.map Prod.fst).contains t.name).map fun t =>
    "**@" ++ t.name ++ ":** " ++ t.value ++ "\n"

/-- a list of links behind a label, if there are any -/
def linkPart (label : Text) (links : List Text) : List Text :=
  match links with
  | [] => []
  | _ => ["**" ++ label ++ ":** " ++ Text.join ", " links ++ "\n"]

/-- a declaration as a block of code, if it is shown -/
def declarationParts : Option Text → List Text
  | none => []
  | some t => ["```xtext", t, "```\n"]

/-- the section of a document, of which the kind, the declaration and the references are known -/
def ruleSection (d : RuleDoc) (m : Mapping) (kind : Text) (declaration : Option Text) (references : List Reference) :
    Text :=
  let body : Text := if d.comment.text = [] then "_No documentation._" else d.comment.text
  Text.join "\n" (
    ["### " ++ d.name ++ "\n", metaLine kind d ++ "\n", body ++ "\n"] ++
      declarationParts declaration ++
      exampleParts d.comment ++ labelledParts d.comment ++ otherParts d.comment ++
      linkPart "References" (references.map (referenceLink m)) ++
      linkPart "Referenced by" ((d.referrers m).map (link m)))

def formatRule (o : Options) (e : Entry) (m : Mapping) : Except FormatError Text :=
  e.formatted ruleSection o m

def failedSection (e : Entry) (u : Unsupported) : Text :=
  "### " ++ e.describe ++ "\n\n> **Error:** documentation for `" ++ e.describe ++ "` could not be generated: " ++
    u.message ++ "\n"

def row (m : Mapping) (e : Entry) : Text :=
  match e.kindLabel, e with
  | .ok kind, .doc d => "| " ++ link m d ++ " | " ++ kind ++ " | " ++ cell d.comment.summary ++ " |"
  | _, _ => "| " ++ cell e.describe ++ " | **unsupported** | |"

def headParts (g : GrammarDoc) : List Text :=
  ["# Grammar `" ++ g.name ++ "`\n"] ++
    (if g.comment.isEmpty then [] else [g.comment.text ++ "\n"]) ++
    (match g.imports with
      | [] => []
      | names => ["**Uses:** " ++ Text.join ", " (names.map fun name => "`" ++ name ++ "`") ++ "\n"]) ++
    (match g.metamodels with
      | [] => []
      | models => [Text.ofString "**Metamodels:**\n"] ++ models.map (fun t => Text.ofString "- `" ++ t ++ "`") ++ [[]])

def contentsParts (g : GrammarDoc) : List Text :=
  [Text.ofString "## Contents\n"] ++
    (match g.entries with
      | [] => [Text.ofString "_This grammar defines no rules._"]
      | entries =>
        [Text.ofString "| Rule | Kind | Summary |", Text.ofString "|------|------|---------|"] ++
          entries.map (row g.mapping)) ++
    [[]]

def formatGrammar (o : Options) (g : GrammarDoc) : Except Unprintable Text × Log :=
  match GrammarDoc.sectionsOf g.name (fun e => formatRule o e g.mapping) failedSection g.entries with
  | (.error u, log) => (.error u, log)
  | (.ok sections, log) =>
    (.ok (GrammarDoc.joinParts
      (headParts g ++ contentsParts g ++ [Text.ofString "## Rules\n", GrammarDoc.joinSections sections])), log)

end Rulebook.Markdown
