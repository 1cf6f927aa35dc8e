/-
Plain text. Headings are underlined, definitions and long tag values are indented, and the parts of a section are
separated by blank lines.
-/
import Rulebook.Document.Rendering
import Rulebook.Text.Casing
import Rulebook.Text.Lines

namespace Rulebook.PlainText

/-- a title with as many marks below it as it has code points -/
def heading (title underline : Text) : Text :=
  title ++ "\n" ++ Text.replicate title.length underline

def margin : Text := "    "

def title (kind : Text) (d : RuleDoc) : Text :=
  d.name ++ " (" ++ kind ++
    (match d.shownType with
      | some t => ", returns " ++ t
      | none => []) ++ ")"

/-- a tag: a value of one line stands behind the name, a longer one below it -/
def tagPart (t : Tag) : Text :=
  if t.value.contains '\n' then Text.capitalize t.name ++ ":\n" ++ Text.indent margin t.value
  else Text.capitalize t.name ++ ": " ++ t.value

/-- a rule referred to, with a mark when nothing is known about it -/
def referenceName (r : Reference) : Text :=
  match r.doc with
  | some _ => r.target.name
  | none => r.target.name ++ " [unresolved reference]"

/-- names behind a label, if there are any -/
def namesPart (label : Text) (names : List Text) : List Text :=
  match names with
  | [] => []
  | _ => [label ++ ": " ++ Text.join ", " names]

/-- the section of a document, of which the kind, the declaration and the references are known -/
def ruleSection (d : RuleDoc) (m : Mapping) (kind : Text) (declaration : Option Text) (references : List Reference) :
    Text :=
  Text.join "\n\n" (
    [heading (title kind d) "-"] ++
      (if d.comment.text = [] then [] else [d.comment.text]) ++
      (declaration.map (Text.indent margin)).toList ++
      d.comment.tags.map tagPart ++
      namesPart "References" (references.map referenceName) ++
      namesPart "Referenced by" ((d.referrers m).map RuleDoc.name)) ++ "\n"

def formatRule (o : Options) (e : Entry) (m : Mapping) : Except FormatError Text :=
  e.formatted ruleSection o m

def failedSection (e : Entry) (u : Unsupported) : Text :=
  heading e.describe "-" ++ "\n\nERROR: " ++ u.message ++ "\n"

def headParts (g : GrammarDoc) : List Text :=
  [heading ("Grammar " ++ g.name) "=", []] ++
    (if g.comment.isEmpty then [] else [g.comment.text, []]) ++
    (match g.imports with
      | [] => []
      | names => ["Uses: " ++ Text.join ", " names, []]) ++
    (match g.metamodels with
      | [] => []
      | models => [Text.ofString "Metamodels:"] ++ models.map (fun t => Text.ofString "  " ++ t) ++ [[]])

def formatGrammar (o : Options) (g : GrammarDoc) : Except Unprintable Text × Log :=
  match GrammarDoc.sectionsOf g.name (fun e => formatRule o e g.mapping) failedSection g.entries with
  | (.error u, log) => (.error u, log)
  | (.ok sections, log) =>
    (.ok (GrammarDoc.joinParts
      (headParts g ++ (if sections.isEmpty then [Text.ofString "(no rules)"] else []) ++
        [GrammarDoc.joinSections sections])), log)

end Rulebook.PlainText
