/-
The documentation of a grammar. Each rule gets a document that holds the rule and its head comment; the variant of the
document follows the kind of the rule. A rule of a kind without a variant of its own is kept in a plain document, which
later counts as unsupported. A grammar document lists the documents of its rules in order.

An entry of a grammar document may also be foreign, an object that documents no rule at all.
-/
import Rulebook.Comment.Reading
import Rulebook.Failure
import Rulebook.Grammar.Basic
import Rulebook.Notice

namespace Rulebook

/-- the variants of a rule document; a `reference` is the plain one -/
inductive DocVariant where
  | parser
  | terminal
  | enumeration
  | reference
  deriving DecidableEq, Repr

namespace DocVariant

def className : DocVariant → Text
  | .parser => "ParserRuleDoc"
  | .terminal => "TerminalRuleDoc"
  | .enumeration => "EnumRuleDoc"
  | .reference => "ReferenceRuleDoc"

def ruleClass : DocVariant → Text
  | .parser => "ParserRule"
  | .terminal => "TerminalRule"
  | .enumeration => "EnumRule"
  | .reference => "AbstractRule"

/-- a variant documents the rules of its kind; the plain one documents any -/
def fits : DocVariant → RuleKind → Bool
  | .parser, .parser _ _ => true
  | .terminal, .terminal _ => true
  | .enumeration, .enumeration => true
  | .reference, _ => true
  | _, _ => false

def ofKind? : RuleKind → Option DocVariant
  | .parser _ _ => some .parser
  | .terminal _ => some .terminal
  | .enumeration => some .enumeration
  | .unresolved => none

end DocVariant

def RuleKind.className : RuleKind → Text
  | .parser _ _ => "ParserRule"
  | .terminal _ => "TerminalRule"
  | .enumeration => "EnumRule"
  | .unresolved => "UnresolvedRule"

/-- the document of a rule; `label` tells apart documents that are otherwise the same -/
structure RuleDoc where
  label : Nat
  variant : DocVariant
  rule : Rule
  comment : Comment

namespace RuleDoc

def name (d : RuleDoc) : Text := d.rule.name

end RuleDoc

/-- what stands in the list of a grammar document: the document of a rule, or an object of a class that is no such
thing -/
inductive Entry where
  | doc (d : RuleDoc)
  | foreign (className : Text)

namespace Entry

def doc? : Entry → Option RuleDoc
  | doc d => some d
  | foreign _ => none

/-- the name of the documented rule; a foreign object documents none -/
def name : Entry → Text
  | doc d => d.name
  | foreign _ => []

def className : Entry → Text
  | doc d => d.variant.className
  | foreign c => c

/-- a name for the object: that of its rule, or else that of its class -/
def describe : Entry → Text
  | doc d => if d.name = [] then d.variant.className else d.name
  | foreign c => c

end Entry

inductive DocPart where
  | rule
  | comment
  deriving DecidableEq, Repr

def DocPart.text : DocPart → Text
  | .rule => "a rule"
  | .comment => "a head comment"

/-- why a document cannot be made -/
inductive Precondition where
  | missingPart (owner : Text) (part : DocPart)
  | mistypedPart (owner : Text) (part : DocPart) (expected found : Text)
  | noRule
  | noName
  | emptyEntry (grammar : Text)
  | repeatedRule (rule grammar : Text)
  deriving DecidableEq, Repr

def Precondition.message : Precondition → Text
  | .missingPart owner part => owner ++ " requires " ++ part.text ++ ", got None"
  | .mistypedPart owner part expected found =>
    owner ++ " requires " ++ part.text ++ " of type " ++ expected ++ ", got " ++ found
  | .noRule => "Cannot document a rule that is None"
  | .noName => "GrammarDoc requires a grammar name"
  | .emptyEntry grammar => "GrammarDoc " ++ grammar ++ " contains a None rule doc"
  | .repeatedRule rule grammar => "Rule " ++ Text.quoted rule ++ " is documented twice in grammar " ++ grammar

/-- a part as it is supplied: a value of the right type, nothing, or a value of another type -/
inductive Supplied (α : Type) where
  | value (a : α)
  | missing
  | mistyped (found : Text)

/-- the comment that a document of this owner needs -/
def Supplied.comment (owner : Text) : Supplied Comment → Except Precondition Comment
  | .value c => .ok c
  | .missing => .error (.missingPart owner .comment)
  | .mistyped found => .error (.mistypedPart owner .comment "DocComment" found)

namespace RuleDoc

def make (label : Nat) (variant : DocVariant) (rule : Option Rule) (comment : Supplied Comment) :
    Except Precondition RuleDoc :=
  match rule with
  | none => .error (.missingPart variant.className .rule)
  | some r =>
    if variant.fits r.kind then
      match comment.comment variant.className with
      | .error e => .error e
      | .ok c => .ok ⟨label, variant, r, c⟩
    else .error (.mistypedPart variant.className .rule variant.ruleClass r.kind.className)

/-- why no document of the variant for its kind can be made of a rule -/
inductive Refusal where
  | precondition (p : Precondition)
  | unsupported (u : Unsupported)
  deriving DecidableEq, Repr

/-- a document of the variant for the kind of the rule -/
def create (label : Nat) (rule : Option Rule) (comment : Supplied Comment) : Except Refusal RuleDoc :=
  match rule with
  | none => .error (.precondition .noRule)
  | some r =>
    match DocVariant.ofKind? r.kind with
    | none => .error (.unsupported (.rule r.name r.kind.className))
    | some variant =>
      match make label variant (some r) comment with
      | .error p => .error (.precondition p)
      | .ok d => .ok d

/-- the document of a rule with its own head comment -/
def ofRule (label : Nat) (r : Rule) : RuleDoc :=
  ⟨label, (DocVariant.ofKind? r.kind).getD .reference, r, Comment.ofRaw? r.comment⟩

end RuleDoc

structure GrammarDoc where
  name : Text
  entries : List Entry
  imports : List Text
  metamodels : List Text
  comment : Comment

namespace GrammarDoc

/-- the entries, none of them missing and no rule documented twice; `seen` are the rules before them -/
def checked (grammar : Text) (seen : List RuleId) : List (Option Entry) → Except Precondition (List Entry)
  | [] => .ok []
  | none :: _ => .error (.emptyEntry grammar)
  | some (.foreign c) :: more =>
    match checked grammar seen more with
    | .error e => .error e
    | .ok es => .ok (.foreign c :: es)
  | some (.doc d) :: more =>
    if d.rule.id ∈ seen then .error (.repeatedRule d.rule.name grammar)
    else
      match checked grammar (d.rule.id :: seen) more with
      | .error e => .error e
      | .ok es => .ok (.doc d :: es)

/-- a grammar document: it needs a name, a comment, and entries that document no rule twice -/
def make (name : Text) (entries : List (Option Entry)) (imports metamodels : List Text)
    (comment : Supplied Comment) : Except Precondition GrammarDoc :=
  if name = [] then .error .noName
  else
    match comment.comment "GrammarDoc" with
    | .error e => .error e
    | .ok c =>
      match checked name [] entries with
      | .error e => .error e
      | .ok es => .ok ⟨name, es, imports, metamodels, c⟩

/-- documents for some rules, labelled from a number on -/
def docsFrom (label : Nat) : List Rule → List RuleDoc
  | [] => []
  | r :: rs => .ofRule label r :: docsFrom (label + 1) rs

/-- what the log hears about rules that have no variant of their own -/
def unsupportedLog (grammar : Text) (rules : List Rule) : Log :=
  (rules.filter fun r => (DocVariant.ofKind? r.kind).isNone).map fun r =>
    .unsupported grammar (.rule r.name r.kind.className)

/-- the documentation of a grammar with one document for each of its rules, and what the log hears -/
def ofGrammar (g : Grammar) : Except Precondition GrammarDoc × Log :=
  (make g.name ((docsFrom 0 g.rules).map fun d => some (.doc d)) (g.used.map Grammar.name)
    (g.metamodels.map Metamodel.text) (.value (Comment.ofRaw? g.comment)),
   unsupportedLog g.name g.rules)

/-- the first document of a rule of this name -/
def find? (g : GrammarDoc) (name : Text) : Option RuleDoc :=
  (g.entries.filterMap Entry.doc?).find? fun d => d.name = name

end GrammarDoc

/-- documents by the rules they document, in the order in which the rules came first -/
abbrev Mapping := List (RuleId × RuleDoc)

namespace Mapping

/-- list a document under its rule, in the stead of one that is there -/
def insert (m : Mapping) (d : RuleDoc) : Mapping :=
  match m with
  | [] => [(d.rule.id, d)]
  | (id, old) :: more => if id = d.rule.id then (id, d) :: more else (id, old) :: insert more d

/-- the mapping of some entries; of two documents of one rule the later one counts -/
def ofEntries (es : List Entry) : Mapping :=
  (es.filterMap Entry.doc?).foldl insert []

def get? (m : Mapping) (id : RuleId) : Option RuleDoc :=
  m.lookup id

def docs (m : Mapping) : List RuleDoc :=
  m.map Prod.snd

end Mapping

def GrammarDoc.mapping (g : GrammarDoc) : Mapping :=
  Mapping.ofEntries g.entries

end Rulebook
