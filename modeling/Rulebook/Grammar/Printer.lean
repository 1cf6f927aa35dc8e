/-
The canonical text of a definition. White space is even, comments are gone, and parentheses stand only where the binding
of the parts asks for them: around a compound element that is decorated or stands where a tighter one is expected, and
around a decorated element to skip to.

Two sorts of node have no text, a bare element and a compound whose members do not belong together; only definitions
made by hand hold them. `Element.unprintable?` finds the first one, and `Element.text` is meant for definitions that
have none.
-/
import Rulebook.Grammar.Basic

namespace Rulebook

def keywordPoint (c : CodePoint) : Text :=
  if c = '\\' then "\\\\"
  else if c = '\'' then "\\'"
  else if c = '\n' then "\\n"
  else if c = '\r' then "\\r"
  else if c = '\t' then "\\t"
  else [c]

def quoteKeyword (value : Text) : Text :=
  "'" ++ value.flatMap keywordPoint ++ "'"

/-- how tightly the parts of an element hold together; atoms hold tightest -/
def Gathering.binding : Gathering → Nat
  | .choice => 1
  | .anyOrder => 2
  | .sequence => 3
  | .plain => 4

def Gathering.separator : Gathering → Text
  | .choice => " | "
  | .anyOrder => " & "
  | .sequence => " "
  | .plain => []

/-- how tightly a member is expected to hold together -/
def Gathering.memberContext : Gathering → Nat
  | .choice => 2
  | .anyOrder => 3
  | .sequence => 4
  | .plain => 4

/-- a node that has no text -/
inductive Unprintable where
  | bare
  | compound
  deriving DecidableEq, Repr

namespace Element

variable {ρ : Type}

/-- how tightly an element holds together -/
def binding : Element ρ → Nat
  | compound _ g _ => g.binding
  | _ => 4

/-- the element stands for text up to its operand -/
def isUpTo : Element ρ → Bool
  | upTo _ _ => true
  | _ => false

/-- the element needs parentheses where one that binds like `context` is expected -/
def parenthesized (context : Nat) (e : Element ρ) : Bool :=
  let decorated := !e.decoration.isNone
  (decide (e.binding < 4) && (decorated || decide (e.binding < context))) || (e.isUpTo && decorated)

/-- a text with parentheses and decoration around it -/
def dressed (context : Nat) (e : Element ρ) (body : Text) : Text :=
  (e.decoration.predicate.map Predicate.text).getD [] ++
    (if e.parenthesized context then "(" ++ body ++ ")" else body) ++
    (e.decoration.cardinality.map Cardinality.text).getD []

mutual

/-- the text of an element without its decoration; `name` gives the text of a call -/
def body (name : ρ → Text) : Element ρ → Text
  | keyword _ v => quoteKeyword v
  | call _ t => name t
  | assignment _ f o t => f ++ o ++ dressed 4 t (body name t)
  | crossReference _ n t => "[" ++ n ++ bodyOption name t ++ "]"
  | action _ n none _ => "\x7b" ++ n ++ "\x7d"
  | action _ n (some f) o => "\x7b" ++ n ++ "." ++ f ++ o.getD "None" ++ "current" ++ "\x7d"
  | compound _ g es => Text.join g.separator (texts name g.memberContext es)
  | range _ l r => quoteKeyword l.value ++ ".." ++ quoteKeyword r.value
  | wildcard _ => "."
  | endOfFile _ => "EOF"
  | negated _ e => "!" ++ dressed 4 e (body name e)
  | upTo _ e => "-> " ++ dressed 4 e (body name e)
  | literal _ n none => n
  | literal _ n (some k) => n ++ "=" ++ quoteKeyword k.value
  | bare _ => []

/-- the terminal of a cross reference, if it has one -/
def bodyOption (name : ρ → Text) : Option (Element ρ) → Text
  | none => []
  | some e => "|" ++ dressed 4 e (body name e)

/-- the texts of some elements where ones that bind like `context` are expected -/
def texts (name : ρ → Text) (context : Nat) : List (Element ρ) → List Text
  | [] => []
  | e :: es => dressed context e (body name e) :: texts name context es

end

/-- the text of an element where one that binds like `context` is expected; `name` gives the text of a call -/
def text (name : ρ → Text) (context : Nat) (e : Element ρ) : Text :=
  dressed context e (body name e)

theorem texts_eq_map (name : ρ → Text) (context : Nat) (es : List (Element ρ)) :
    texts name context es = es.map (text name context) := by
  induction es with
  | nil => rfl
  | cons e es ih => rw [texts, ih, List.map_cons, text]

theorem body_compound (name : ρ → Text) (d : Decoration) (g : Gathering) (es : List (Element ρ)) :
    body name (compound d g es) = Text.join g.separator (es.map (text name g.memberContext)) := by
  rw [body, texts_eq_map]

/-- the sort of a node that has no text -/
def unprintableNode? : Element ρ → Option Unprintable
  | bare _ => some .bare
  | compound _ .plain _ => some .compound
  | _ => none

/-- the first node without a text -/
def unprintable? (e : Element ρ) : Option Unprintable :=
  e.nodes.findSome? unprintableNode?

end Element

/-- the text of a call: the name of the rule it is linked to -/
def linkedName : Option RuleRef → Text
  | some r => r.name
  | none => "<unlinked>"

namespace Declaration

variable {ρ : Type}

/-- the words before the name of a rule -/
def introduction (r : Declaration ρ) : List Text :=
  match r.kind with
  | .parser fragment _ => if fragment then ["fragment"] else []
  | .terminal fragment => if fragment then ["terminal", "fragment"] else ["terminal"]
  | .enumeration => ["enum"]
  | .unresolved => []

/-- the type that a rule returns, as declared; an empty name declares none -/
def returnsClause (r : Declaration ρ) : List Text :=
  match r.typeName with
  | some (c :: name) => ["returns " ++ (c :: name)]
  | _ => []

def hiddenClause (r : Declaration ρ) : List Text :=
  match r.kind with
  | .parser _ (h :: hs) => ["hidden(" ++ Text.join ", " (h :: hs) ++ ")"]
  | _ => []

/-- a declaration up to its colon -/
def header (r : Declaration ρ) : Text :=
  Text.join " " (r.introduction ++ [r.name] ++ r.returnsClause ++ r.hiddenClause)

/-- the definition of a rule on lines of its own; alternatives stand on one line each -/
def definitionText (name : ρ → Text) : Element ρ → Text
  | .compound ⟨none, none⟩ .choice es => Text.join "\n    | " (Element.texts name 2 es)
  | e => e.text name 1

/-- a whole declaration; `name` gives the text of a call -/
def text (name : ρ → Text) (r : Declaration ρ) : Text :=
  match r.definition with
  | none => r.header ++ ";"
  | some e => r.header ++ ":\n    " ++ definitionText name e ++ ";"

end Declaration

namespace Rule

/-- the first node of the definition without a text -/
def unprintable? (r : Rule) : Option Unprintable :=
  r.definition.bind Element.unprintable?

/-- the declaration of a rule in canonical form -/
def printed (r : Rule) : Except Unprintable Text :=
  match r.unprintable? with
  | some u => .error u
  | none => .ok (r.toDeclaration.text linkedName)

end Rule

namespace Element

/-- a linked element in canonical form, where one that binds like `context` is expected -/
def printed (context : Nat) (e : Definition) : Except Unprintable Text :=
  match e.unprintable? with
  | some u => .error u
  | none => .ok (e.text linkedName context)

end Element

end Rulebook
