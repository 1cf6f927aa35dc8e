/-
Reading a whole grammar file: its name and head comment, the grammars it uses, hidden tokens, metamodels, and its rules
with their head comments. A rule's comment is the one right before it; annotations may stand in between, and of several
comments around them the last one counts.

A fault behind the name of the grammar carries the name.
-/
import Rulebook.Source.Declaration
import Rulebook.Token.Lexed

namespace Rulebook.Source

/-- a grammar as its file says it, before any call is linked -/
structure WrittenGrammar where
  name : Text
  comment : Option Text
  uses : List Text
  hidden : List Text
  metamodels : List Metamodel
  rules : List WrittenRule

/-- further parts of a qualified name; a dot without a name behind it is not part of it -/
def moreNameParts : (words : List Word) → Reading (List Text) false words
  | d :: n :: rest =>
    if d.token.isSymbol .dot && n.token.kind = .name then
      ((moreNameParts rest).map (n.token.value :: ·)).behind.behind.loose
    else .nothing [] (d :: n :: rest)
  | few => .nothing [] few

def qualifiedName (words : List Word) : Reading Text true words :=
  (take .name "name" words).next fun first tail _ =>
  (moreNameParts tail).map fun parts => Text.join "." (first.value :: parts)

def usesHere (words : List Word) : Reading (List Text) false words :=
  (behindWord? "with" (oneOrMore .comma qualifiedName) words).map fun names => names.getD []

/-- the second name of a metamodel, if it has one -/
def shortNameHere (words : List Word) : Reading (Option Text) false words :=
  (behindWord? "as" (take .name "alias") words).map fun name => name.map Token.value

def generated (words : List Word) : Reading Metamodel true words :=
  (takeWord "generate" words).next fun _ named _ =>
  (take .name "metamodel name" named).next fun name addressed _ =>
  (take .literal "metamodel URI" addressed).next fun uri tail _ =>
  (shortNameHere tail).map fun short => ⟨uri.value, some name.value, short, true⟩

def imported (words : List Word) : Reading Metamodel true words :=
  (takeWord "import" words).next fun _ addressed _ =>
  (take .literal "metamodel URI" addressed).next fun uri tail _ =>
  (shortNameHere tail).map fun short => ⟨uri.value, none, short, false⟩

/-- a metamodel, if one stands here -/
def metamodel? (words : List Word) : Option (Reading Metamodel true words) :=
  if introduces "generate" words then some (generated words)
  else if atWord "import" words && atLiteral (words.drop 1) then some (imported words)
  else none

/-- the metamodels, as many as there are -/
def metamodels (words : List Word) : Reading (List Metamodel) false words :=
  match metamodel? words with
  | none => .nothing [] words
  | some m => (m.next fun first tail _ => (metamodels tail).map (first :: ·)).loose
termination_by words.length

/-- the name of an annotation, and the comment right behind it -/
def annotation (words : List Word) : Reading (Option Text) true words :=
  (take .name "annotation name" words).next fun _ tail _ => .nothing (commentHere tail) tail

/-- annotations before a rule, and the comment that counts once they are read -/
def annotations (comment : Option Text) (words : List Word) : Reading (Option Text) false words :=
  (behindSymbols .atSign words fun r _ => annotation r).map fun comments =>
    comments.foldl (fun last c => c.or last) comment

/-- the rules up to the end of the text; annotations at the very end say nothing -/
def rules (words : List Word) : Reading (List WrittenRule) false words :=
  (annotations (commentHere words) words).next fun comment declared _ =>
    if declared.isEmpty then .nothing [] declared
    else ((rule declared).next fun r tail _ => (rules tail).map ({ r with comment } :: ·)).loose
termination_by words.length

def afterName (comment : Option Text) (name : Text) (words : List Word) : Reading WrittenGrammar false words :=
  (usesHere words).next fun uses clause _ =>
  (hiddenHere clause).next fun hidden declared _ =>
  (metamodels declared).next fun models body _ =>
  (rules body).map fun declarations => ⟨name, comment, uses, hidden, models, declarations⟩

namespace WrittenGrammar

def header (words : List Word) : Reading Text true words :=
  (takeWord "grammar" words).next fun _ named _ => qualifiedName named

def ofWords (words : List Word) : Except Fault WrittenGrammar :=
  match header words with
  | .error e => .error e
  | .ok ⟨name, rest, _⟩ =>
    match afterName (commentHere words) name rest with
    | .error e => .error { e with grammar := some name }
    | .ok step => .ok step.value

/-- the error that a fault makes in a text; the end of the text is where it stops -/
def errorOf (file : Path) (source : Text) (lexed : Lexed) (fault : Fault) : SyntaxError :=
  let found := fault.found.getD lexed.stopToken
  ⟨.misplaced fault.complaint found,
    ⟨file, found.line, found.column, found.length, some (snippetAt source found.line), fault.grammar⟩⟩

def ofText (file : Path) (source : Text) : Except SyntaxError WrittenGrammar :=
  match Lexed.ofSource file source with
  | .error e => .error e
  | .ok lexed =>
    match ofWords (wordsOf lexed.tokens) with
    | .error fault => .error (errorOf file source lexed fault)
    | .ok g => .ok g

/-- a text is read as a grammar exactly when it is cut into tokens whose words are that grammar -/
theorem ofText_eq_ok_iff {file : Path} {source : Text} {g : WrittenGrammar} :
    ofText file source = .ok g ↔
      ∃ lexed, Lexed.ofSource file source = .ok lexed ∧ ofWords (wordsOf lexed.tokens) = .ok g := by
  unfold ofText
  cases Lexed.ofSource file source with
  | error e => simp
  | ok lexed => cases hwords : ofWords (wordsOf lexed.tokens) <;> simp [hwords]

end WrittenGrammar

end Rulebook.Source
