/-
What formatters share. A rule is formatted on its own, and formatting may fail in two ways: the object is not supported,
or the definition holds a node that has no text. A grammar is formatted rule by rule with one mapping; an unsupported
object gets a marked section and a line in the log, and the other rules are not affected. A definition without a text
stops the whole document, with the log as it is by then.
-/
import Rulebook.Document.Graph
import Rulebook.Grammar.Printer

namespace Rulebook

/-- why a rule cannot be formatted -/
inductive FormatError where
  | unsupported (u : Unsupported)
  | unprintable (u : Unprintable)
  deriving DecidableEq, Repr

/-- the wording of a node without a text -/
def Unprintable.message : Unprintable → Text
  | .bare => "Cannot serialize grammar element AbstractElement"
  | .compound => "Cannot serialize grammar element CompoundElement"

namespace RuleDoc

/-- the declaration of a rule, if the options ask for it and the rule has a definition -/
def shownDeclaration (o : Options) (d : RuleDoc) : Except Unprintable (Option Text) :=
  if o.includeSyntax && d.rule.definition.isSome then
    match d.rule.printed with
    | .error u => .error u
    | .ok t => .ok (some t)
  else .ok none

/-- the declared type of a rule; an empty name declares none -/
def shownType (d : RuleDoc) : Option Text :=
  d.rule.typeName.filter fun t => !t.isEmpty

end RuleDoc

namespace Entry

/-- the section of one entry; `layOut` is the way of a formatter to put it together for a document of which the kind, the
declaration and the references are known -/
def formatted (layOut : RuleDoc → Mapping → Text → Option Text → List Reference → Text) (o : Options) (e : Entry)
    (m : Mapping) : Except FormatError Text :=
  match e.kindLabel, e.resolve m, e with
  | .error u, _, _ => .error (.unsupported u)
  | _, .error u, _ => .error (.unsupported u)
  | _, _, .foreign c => .error (.unsupported (.document c c))
  | .ok kind, .ok references, .doc d =>
    match d.shownDeclaration o with
    | .error u => .error (.unprintable u)
    | .ok declaration => .ok (layOut d m kind declaration references)

variable {layOut : RuleDoc → Mapping → Text → Option Text → List Reference → Text} {o : Options} {e : Entry} {m : Mapping}

/-- a section is that of a document, with the declaration that is shown -/
theorem formatted_ok {t : Text} (h : e.formatted layOut o m = .ok t) :
    ∃ d kind declaration references, e = .doc d ∧ d.shownDeclaration o = .ok declaration ∧
      t = layOut d m kind declaration references := by
  unfold formatted at h
  split at h
  · cases h
  · cases h
  · cases h
  · split at h
    · cases h
    · next hdeclaration =>
      cases h
      exact ⟨_, _, _, _, rfl, hdeclaration, rfl⟩

/-- only a declaration may have no text -/
theorem formatted_unprintable {u : Unprintable} (h : e.formatted layOut o m = .error (.unprintable u)) :
    ∃ d, e = .doc d ∧ d.shownDeclaration o = .error u := by
  unfold formatted at h
  split at h
  · cases h
  · cases h
  · cases h
  · split at h
    · next hdeclaration =>
      cases h
      exact ⟨_, rfl, hdeclaration⟩
    · cases h

end Entry

namespace GrammarDoc

/-- the sections of some entries, and what the log hears; `failed` is the section of an unsupported object -/
def sectionsOf (grammar : Text) (render : Entry → Except FormatError Text) (failed : Entry → Unsupported → Text) :
    List Entry → Except Unprintable (List Text) × Log
  | [] => (.ok [], [])
  | e :: es =>
    match render e with
    | .error (.unprintable u) => (.error u, [])
    | .error (.unsupported u) =>
      match sectionsOf grammar render failed es with
      | (.error stop, log) => (.error stop, .unsupported grammar u :: log)
      | (.ok rest, log) => (.ok (failed e u :: rest), .unsupported grammar u :: log)
    | .ok t =>
      match sectionsOf grammar render failed es with
      | (.error stop, log) => (.error stop, log)
      | (.ok rest, log) => (.ok (t :: rest), log)

/-- the sections one after the other, a blank line between them -/
def joinSections (sections : List Text) : Text :=
  Text.join "\n\n" (sections.map Text.stripRight)

/-- the parts of a document one after the other, with one line end behind the last -/
def joinParts (parts : List Text) : Text :=
  Text.stripRight (Text.join "\n" parts) ++ "\n"

end GrammarDoc

end Rulebook
