/-
Reading the declaration of a rule: a parser rule, a terminal rule or an enumeration. The words that introduce a rule are
ordinary names; `terminal`, `enum` and `fragment` mean something only when another name follows.
-/
import Rulebook.Grammar.Basic
import Rulebook.Source.Definition

namespace Rulebook.Source

/-- a rule whose calls are as written -/
abbrev WrittenRule := Declaration WrittenCall

/-- the next word is `word` and a name follows it -/
def introduces (word : Text) (words : List Word) : Bool :=
  atWord word words && atName (words.drop 1)

/-- names of rules up to a closing parenthesis, perhaps none -/
def hiddenNames (words : List Word) : Reading (List Text) false words :=
  if atSymbol .closeParen words then .nothing [] words else (oneOrMore .comma ruleName words).loose

/-- names of rules in parentheses -/
def hiddenClause (words : List Word) : Reading (List Text) true words :=
  (takeSymbol .openParen words).next fun _ inside _ =>
  (hiddenNames inside).next fun names close _ =>
  (takeSymbol .closeParen close).map fun _ => names

/-- the hidden tokens, if a clause that names them stands here -/
def hiddenHere (words : List Word) : Reading (List Text) false words :=
  (behindWord? "hidden" hiddenClause words).map fun names => names.getD []

/-- the type that a rule returns, if it is declared -/
def returnsHere (words : List Word) : Reading (Option Text) false words :=
  behindWord? "returns" typeRef words

def definition (mode : Mode) (words : List Word) : Reading Tree true words :=
  (takeSymbol .colon words).next fun _ inside _ =>
  (alternatives mode inside).next fun tree close _ =>
  (takeSymbol .semicolon close).map fun _ => tree

/-- the word `fragment`, if it introduces a rule -/
def fragmentHere (words : List Word) : Reading Bool false words :=
  if introduces "fragment" words then ((takeWord "fragment" words).map fun _ => true).loose
  else .nothing false words

/-- a star behind the name of a fragment, which then has no type -/
def starHere (fragment : Bool) (words : List Word) : Reading Bool false words :=
  if fragment && atSymbol .star words then ((takeSymbol .star words).map fun _ => true).loose
  else .nothing false words

def parserRule (words : List Word) : Reading WrittenRule true words :=
  (fragmentHere words).next fun fragment named _ =>
  (take .name "rule name" named).next fun name behind _ =>
  if atSymbol .less behind then complain behind .ruleParameters
  else
    (starHere fragment behind).next fun _ typed _ =>
    (returnsHere typed).next fun typeName clause _ =>
    (hiddenHere clause).next fun hidden body _ =>
    (definition .parser body).map fun tree =>
      ⟨.parser fragment hidden, name.value, typeName, none, some name.line, some tree⟩

def terminalRule (words : List Word) : Reading WrittenRule true words :=
  (takeWord "terminal" words).next fun _ introduced _ =>
  (fragmentHere introduced).next fun fragment named _ =>
  (take .name "rule name" named).next fun name typed _ =>
  (returnsHere typed).next fun typeName body _ =>
  (definition .terminal body).map fun tree =>
    ⟨.terminal fragment, name.value, typeName, none, some name.line, some tree⟩

/-- an enumeration literal, perhaps with the keyword that stands for it -/
def enumLiteral (words : List Word) : Reading Tree true words :=
  (take .name "enum literal" words).next fun name tail _ =>
  (behindSymbol? .equals (take .literal "keyword") tail).map fun keyword =>
    .literal .none name.value (keyword.map fun k => ⟨.none, k.value⟩)

def enumLiterals (words : List Word) : Reading Tree true words :=
  (enumLiteral words).next fun first tail _ =>
  (behindSymbols .bar tail fun r _ => enumLiteral r).map (gather .choice first)

def enumRule (words : List Word) : Reading WrittenRule true words :=
  (takeWord "enum" words).next fun _ named _ =>
  (take .name "rule name" named).next fun name typed _ =>
  (returnsHere typed).next fun typeName colon _ =>
  (takeSymbol .colon colon).next fun _ body _ =>
  (enumLiterals body).next fun tree close _ =>
  (takeSymbol .semicolon close).map fun _ =>
    ⟨.enumeration, name.value, typeName, none, some name.line, some tree⟩

def rule (words : List Word) : Reading WrittenRule true words :=
  if introduces "terminal" words then terminalRule words
  else if introduces "enum" words then enumRule words
  else parserRule words

end Rulebook.Source
