/-
Grammars, their rules, and the grammars they use. Two rules of the same name and content are still two rules, so every
rule has an identity: the grammar that declares it and its position there, or, for a name that no known grammar
declares, the grammar that calls it and the name as written.

A call refers to its rule by identity; the reference carries the rule's name along, so a definition can be printed
without looking the rule up.
-/
import Rulebook.Grammar.Element

namespace Rulebook

inductive RuleId where
  | declared (grammar position : Nat)
  | standIn (scope : Nat) (name : Text)
  deriving DecidableEq, Repr

structure RuleRef where
  id : RuleId
  name : Text
  deriving DecidableEq, Repr

/-- the kinds of rule and what only one kind has; `unresolved` stands for a rule nobody declares -/
inductive RuleKind where
  | parser (fragment : Bool) (hidden : List Text)
  | terminal (fragment : Bool)
  | enumeration
  | unresolved
  deriving DecidableEq, Repr

/-- what is written about a rule; `ρ` is what the calls of its definition point at -/
structure Declaration (ρ : Type) where
  kind : RuleKind
  name : Text
  typeName : Option Text
  comment : Option Text
  line : Option Nat
  definition : Option (Element ρ)

/-- a definition with its calls linked; an unlinked call points at nothing -/
abbrev Definition := Element (Option RuleRef)

structure Rule extends Declaration (Option RuleRef) where
  id : RuleId

/-- a declared source of types: generated from the grammar, or imported -/
structure Metamodel where
  uri : Text
  name : Option Text
  shortName : Option Text
  generated : Bool
  deriving DecidableEq, Repr

/-- a metamodel as declared; a generated one without a name shows `None` in its place -/
def Metamodel.text (m : Metamodel) : Text :=
  let head :=
    if m.generated then "generate " ++ m.name.getD "None" ++ " \"" ++ m.uri ++ "\"" else "import \"" ++ m.uri ++ "\""
  match m.shortName with
  | some (c :: name) => head ++ " as " ++ (c :: name)
  | _ => head

/-- a grammar with the grammars it uses; `id` tells apart grammars of one name -/
structure Grammar where
  id : Nat
  name : Text
  comment : Option Text
  hidden : List Text
  metamodels : List Metamodel
  rules : List Rule
  used : List Grammar

namespace Declaration

variable {ρ : Type}

/-- a fragment describes a part of other rules -/
def isFragment (r : Declaration ρ) : Bool :=
  match r.kind with
  | .parser fragment _ => fragment
  | .terminal fragment => fragment
  | _ => false

end Declaration

namespace Rule

def ref (r : Rule) : RuleRef := ⟨r.id, r.name⟩

/-- the rules called in the definition, one per call, in order -/
def calls (r : Rule) : List (Option RuleRef) :=
  (r.definition.map Element.calls).getD []

/-- the enumeration literals of the definition, each with the text it is written as; a definition that is a literal itself
is not searched -/
def literals (r : Rule) : List (Text × Text) :=
  match r.definition with
  | none => []
  | some e =>
    match e.literal? with
    | some l => [l]
    | none => e.nodes.filterMap Element.literal?

end Rule

namespace Grammar

/-- the last part of a qualified name -/
def simpleName (name : Text) : Text :=
  Text.afterLast '.' name

mutual

/-- the first rule of a name in the grammar itself, else in the grammars it uses, each searched to its depth -/
def findRule (g : Grammar) (name : Text) : Option Rule :=
  match g with
  | ⟨_, _, _, _, _, rules, used⟩ =>
    match rules.find? fun r => r.name = name with
    | some r => some r
    | none => findInUsed used name

/-- the first rule of a name in some grammars, each searched to its depth -/
def findInUsed (used : List Grammar) (name : Text) : Option Rule :=
  match used with
  | [] => none
  | g :: gs =>
    match findRule g name with
    | some r => some r
    | none => findInUsed gs name

end

end Grammar

end Rulebook
