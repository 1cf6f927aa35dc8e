/-
Linking. Every call of a grammar gets the rule it means: an unqualified name means the first rule of that name in the
grammar itself, else the first in the grammars it uses; a qualified name is looked up in the used grammars only, by its
last part. A name that nobody declares gets a stand-in, one for each written name.

The log hears of rules declared more than once and of names that nobody declares, each name once.
-/
import Rulebook.Grammar.Basic
import Rulebook.Notice
import Rulebook.Source.Grammar

namespace Rulebook

open Source

/-- what calls are looked up in: the names of the grammar's own rules by position, and the used grammars -/
structure Scope where
  id : Nat
  name : Text
  own : List Text
  used : List Grammar

namespace Scope

def ownRule? (s : Scope) (name : Text) : Option RuleRef :=
  (s.own.findIdx? fun own => own = name).map fun i => ⟨.declared s.id i, name⟩

/-- the rule that a call means, if some known grammar declares it -/
def find? (s : Scope) (c : WrittenCall) : Option RuleRef :=
  match c.qualifier with
  | some _ => (Grammar.findInUsed s.used c.name).map Rule.ref
  | none => (s.ownRule? c.name).or ((Grammar.findInUsed s.used c.name).map Rule.ref)

/-- what stands for a name that nobody declares -/
def standIn (s : Scope) (written : Text) : RuleRef :=
  ⟨.standIn s.id written, written⟩

def resolve (s : Scope) (c : WrittenCall) : RuleRef :=
  (s.find? c).getD (s.standIn c.written)

def linkRule (s : Scope) (position : Nat) (r : WrittenRule) : Rule :=
  { kind := r.kind, name := r.name, typeName := r.typeName, comment := r.comment, line := r.line
    definition := r.definition.map (Element.map fun c => some (s.resolve c))
    id := .declared s.id position }

/-- rules with their calls linked, the first at a given position -/
def linkFrom (s : Scope) (position : Nat) : List WrittenRule → List Rule
  | [] => []
  | r :: rs => s.linkRule position r :: s.linkFrom (position + 1) rs

/-- one notice for every rule whose name is taken already -/
def repeated (grammar : Text) (seen : List Text) : List Text → Log
  | [] => []
  | name :: names =>
    if name ∈ seen then .repeatedRule grammar name :: repeated grammar seen names
    else repeated grammar (name :: seen) names

/-- one notice for every written name that nobody declares -/
def unknown (s : Scope) (seen : List Text) : List WrittenCall → Log
  | [] => []
  | c :: cs =>
    if (s.find? c).isNone ∧ c.written ∉ seen then
      .unknownRule c.line c.column c.written s.name :: unknown s (c.written :: seen) cs
    else unknown s seen cs

end Scope

namespace Source.WrittenGrammar

/-- the calls of all rules, in order -/
def calls (g : WrittenGrammar) : List WrittenCall :=
  g.rules.flatMap fun r => (r.definition.map Element.calls).getD []

/-- what the calls of a grammar are looked up in -/
def scope (g : WrittenGrammar) (id : Nat) (used : List Grammar) : Scope :=
  ⟨id, g.name, g.rules.map Declaration.name, used⟩

/-- the grammar with its calls linked; `id` tells it apart from others -/
def link (g : WrittenGrammar) (id : Nat) (used : List Grammar) : Grammar :=
  ⟨id, g.name, g.comment, g.hidden, g.metamodels, (g.scope id used).linkFrom 0 g.rules, used⟩

def linkLog (g : WrittenGrammar) (id : Nat) (used : List Grammar) : Log :=
  let s := g.scope id used
  Scope.repeated g.name [] s.own ++ s.unknown [] g.calls

end Source.WrittenGrammar

end Rulebook
