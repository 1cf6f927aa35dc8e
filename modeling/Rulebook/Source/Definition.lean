/-
Reading the definition of a rule. A definition is alternatives of unordered groups of sequences of elements; parentheses
group, and a compound of a single member is that member. The elements of a terminal rule differ from those of a parser
rule, so reading knows which of the two it is in.

Every reader here takes at least one word, except those of what may follow; none looks at more than two words before it
decides.
-/
import Rulebook.Grammar.Element
import Rulebook.Source.Word

namespace Rulebook.Source

/-- a call as written: the name, its qualifier if it has one, and where it stands -/
structure WrittenCall where
  qualifier : Option Text
  name : Text
  line : Nat
  column : Nat
  deriving DecidableEq, Repr

/-- the called name with its qualifier -/
def WrittenCall.written (c : WrittenCall) : Text :=
  match c.qualifier with
  | none => c.name
  | some q => q ++ "::" ++ c.name

/-- a definition whose calls are as written -/
abbrev Tree := Element WrittenCall

/-- whether a definition belongs to a parser rule or a terminal rule -/
inductive Mode where
  | parser
  | terminal
  deriving DecidableEq, Repr

/-- put a cardinality behind an element; one that already has a cardinality becomes the member of a sequence -/
def withCardinality (c : Cardinality) (e : Tree) : Tree :=
  match e.decoration.cardinality with
  | some _ => .compound ⟨some c, none⟩ .sequence [e]
  | none => e.decorated ⟨some c, e.decoration.predicate⟩

/-- put a predicate before an element; one that already has a decoration becomes the member of a sequence -/
def withPredicate (p : Predicate) (e : Tree) : Tree :=
  if e.decoration.isNone then e.decorated ⟨none, some p⟩ else .compound ⟨none, some p⟩ .sequence [e]

/-- members that belong together; a single one stands for itself -/
def gather (g : Gathering) (first : Tree) (more : List Tree) : Tree :=
  match more with
  | [] => first
  | _ => .compound .none g (first :: more)

def cardinality? (t : Token) : Option Cardinality :=
  match t.kind with
  | .symbol .question => some .optional
  | .symbol .star => some .any
  | .symbol .plus => some .atLeastOne
  | _ => none

def predicate? (t : Token) : Option Predicate :=
  match t.kind with
  | .symbol .fatArrow => some .syntactic
  | .symbol .arrow => some .firstToken
  | _ => none

def isAssignment (t : Token) : Bool :=
  t.isSymbol .equals || t.isSymbol .plusEquals || t.isSymbol .questionEquals

def atSequenceEnd : List Word → Bool
  | [] => true
  | w :: _ =>
    [Symbol.bar, .ampersand, .closeParen, .semicolon, .closeBracket].any fun s => w.token.isSymbol s

/-- an element with the cardinality that follows it, if one does -/
def decorated (e : Tree) (words : List Word) : Reading Tree false words :=
  (Reading.meaning? (fun w => cardinality? w.token) words).map fun c => c.elim e fun c => withCardinality c e

def predicateHere (words : List Word) : Reading (Option Predicate) false words :=
  Reading.meaning? (fun w => predicate? w.token) words

/-- the call that a name makes where it stands -/
def callOf : Token × Option Token → WrittenCall
  | (first, none) => ⟨none, first.value, first.line, first.column⟩
  | (first, some name) => ⟨some first.value, name.value, first.line, first.column⟩

/-- a call of a rule; arguments are refused -/
def call (words : List Word) : Reading Tree true words :=
  (qualified "rule name" words).next fun name rest _ =>
    if atSymbol .less rest then complain rest .callArguments else .nothing (.call .none (callOf name)) rest

def keywordOf (w : Word) : Tree :=
  .keyword .none w.token.value

/-- an element without parentheses: a keyword or a call -/
def leaf (words : List Word) : Reading Tree true words :=
  match words with
  | [] => complain [] .unexpected
  | w :: rest =>
    if w.token.kind = .literal then .ok ((Step.first w rest).map keywordOf)
    else if w.token.kind = .name then call (w :: rest)
    else if w.token.isSymbol .openBracket then complain (w :: rest) .bareCrossReference
    else complain (w :: rest) .unexpected

/-- what a cross reference is written with: a keyword or a call -/
def referenceTerminal (words : List Word) : Reading Tree true words :=
  match words with
  | [] => call []
  | w :: rest => if w.token.kind = .literal then .ok ((Step.first w rest).map keywordOf) else call (w :: rest)

/-- a cross reference: a type in brackets, perhaps with the terminal it is written with -/
def crossReference (words : List Word) : Reading Tree true words :=
  (takeSymbol .openBracket words).next fun _ inside _ =>
  (typeRef inside).next fun typeName tail _ =>
  (behindSymbol? .bar referenceTerminal tail).next fun terminal close _ =>
  (takeSymbol .closeBracket close).map fun _ => .crossReference .none typeName terminal

def actionOperator (words : List Word) : Reading Token true words :=
  takeIf (fun t => t.isSymbol .equals || t.isSymbol .plusEquals) .expectedOperator words

/-- a feature of the current object, and the operator -/
def actionFeature (words : List Word) : Reading (Text × Text) true words :=
  (take .name "feature name" words).next fun feature tail _ =>
  (actionOperator tail).next fun operator last _ =>
  (takeWord "current" last).map fun _ => (feature.value, operator.value)

/-- an action: a type in braces, perhaps with a feature of the current object -/
def action (words : List Word) : Reading Tree true words :=
  (takeSymbol .openBrace words).next fun _ inside _ =>
  (typeRef inside).next fun typeName tail _ =>
  (behindSymbol? .dot actionFeature tail).next fun feature close _ =>
  (takeSymbol .closeBrace close).map fun _ =>
    .action .none typeName (feature.map Prod.fst) (feature.map Prod.snd)

mutual

/-- what may be assigned: a keyword, a call, a cross reference inside parentheses, or alternatives of these -/
def assignable (words : List Word) : Reading Tree true words :=
  match words with
  | [] => leaf []
  | w :: rest =>
    if w.token.isSymbol .openParen then
      .behind <|
      (assignableMember rest).next fun first tail _ =>
      (behindSymbols .bar tail fun r _ => assignableMember r).next fun more close _ =>
      (takeSymbol .closeParen close).map fun _ => gather .choice first more
    else leaf (w :: rest)
termination_by (words.length, 0)

/-- one alternative of an assigned value -/
def assignableMember (words : List Word) : Reading Tree true words :=
  if atSymbol .openBracket words then crossReference words else assignable words
termination_by (words.length, 1)

end

def assigned (operator : Text) (words : List Word) : Reading Tree true words :=
  match words with
  | [] => complain [] (.expectedAssignable operator)
  | w :: rest =>
    if w.token.isSymbol .openBracket then crossReference (w :: rest)
    else if w.token.kind = .literal || w.token.kind = .name || w.token.isSymbol .openParen then
      assignable (w :: rest)
    else complain (w :: rest) (.expectedAssignable operator)

/-- an assignment, if a name and an operator stand here -/
def assignment? (words : List Word) : Option (Reading Tree true words) :=
  match words with
  | f :: o :: rest =>
    if f.token.kind = .name && isAssignment o.token then
      some ((assigned o.token.value rest).map fun e =>
        .assignment .none f.token.value o.token.value e).behind.behind
    else none
  | _ => none

/-- a keyword of a terminal rule, or the range it begins -/
def keywordOrRange (words : List Word) : Reading Tree true words :=
  (take .literal "keyword" words).next fun left tail _ =>
  (behindSymbol? .doubleDot (take .literal "range end") tail).map fun right =>
    match right with
    | none => .keyword .none left.value
    | some right => .range .none ⟨.none, left.value⟩ ⟨.none, right.value⟩

mutual

/-- unordered groups between bars -/
def alternatives (mode : Mode) (words : List Word) : Reading Tree true words :=
  (unorderedGroup mode words).next fun first tail _ =>
  (behindSymbols .bar tail fun r _ => unorderedGroup mode r).map (gather .choice first)
termination_by (words.length, 6)

/-- sequences between ampersands -/
def unorderedGroup (mode : Mode) (words : List Word) : Reading Tree true words :=
  (sequence mode words).next fun first tail _ =>
  (behindSymbols .ampersand tail fun r _ => sequence mode r).map (gather .anyOrder first)
termination_by (words.length, 5)

/-- elements one after the other, at least one -/
def sequence (mode : Mode) (words : List Word) : Reading Tree true words :=
  if atSequenceEnd words then complain words .expectedElement
  else (element mode words).next fun first tail _ => (moreElements mode tail).map (gather .sequence first)
termination_by (words.length, 4)

def moreElements (mode : Mode) (words : List Word) : Reading (List Tree) false words :=
  if atSequenceEnd words then .nothing [] words
  else ((element mode words).next fun first tail _ => (moreElements mode tail).map (first :: ·)).loose
termination_by (words.length, 4)

/-- one element with its decoration; an action takes none -/
def element (mode : Mode) (words : List Word) : Reading Tree true words :=
  match mode with
  | .terminal => (terminalElement words).next fun e tail _ => decorated e tail
  | .parser =>
    if atSymbol .openBrace words then action words
    else
      (predicateHere words).next fun p inner _ =>
      (plainElement inner).next fun e tail _ =>
      decorated (p.elim e fun p => withPredicate p e) tail
termination_by (words.length, 3)
decreasing_by all_goals exact Prod.Lex.right' _ (by omega) (by decide)

/-- an assignment or an atom -/
def plainElement (words : List Word) : Reading Tree true words :=
  match assignment? words with
  | some r => r
  | none => atom .parser words
termination_by (words.length, 1)

/-- an element of a terminal rule without its cardinality -/
def terminalElement (words : List Word) : Reading Tree true words :=
  match words with
  | [] => terminalOperand []
  | w :: rest =>
    if w.token.isSymbol .arrow then ((terminalOperand rest).map (.upTo .none)).behind
    else terminalOperand (w :: rest)
termination_by (words.length, 2)

/-- what may be negated or skipped to -/
def terminalOperand (words : List Word) : Reading Tree true words :=
  match words with
  | [] => atom .terminal []
  | w :: rest =>
    if w.token.isSymbol .dot then .ok ((Step.first w rest).map fun _ => .wildcard .none)
    else if w.token.isWord "EOF" then .ok ((Step.first w rest).map fun _ => .endOfFile .none)
    else if w.token.kind = .literal then keywordOrRange (w :: rest)
    else if w.token.isSymbol .bang then ((terminalOperand rest).map (.negated .none)).behind
    else atom .terminal (w :: rest)
termination_by (words.length, 1)

/-- a keyword, a call, or alternatives in parentheses -/
def atom (mode : Mode) (words : List Word) : Reading Tree true words :=
  match words with
  | [] => leaf []
  | w :: rest =>
    if w.token.isSymbol .openParen then
      .behind <|
      (alternatives mode rest).next fun e close _ =>
      (takeSymbol .closeParen close).map fun _ => e
    else leaf (w :: rest)
termination_by (words.length, 0)

end

end Rulebook.Source
