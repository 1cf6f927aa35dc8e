/-
The definition of a rule as a tree. What a call points at is a parameter: the tree of a text that has only been read
holds calls as written, the tree of a grammar holds references to rules. Every node carries its decoration, a
cardinality behind it and a predicate before it.

`Element.walk` visits a forest from left to right, each node before what is below it; `Element.nodes` is the walk of one
tree.
-/
import Rulebook.Text.Basic

namespace Rulebook

/-- how often an element may occur -/
inductive Cardinality where
  | optional
  | any
  | atLeastOne
  deriving DecidableEq, Repr

def Cardinality.text : Cardinality → Text
  | .optional => "?"
  | .any => "*"
  | .atLeastOne => "+"

/-- a hint for the choice between alternatives -/
inductive Predicate where
  | syntactic
  | firstToken
  deriving DecidableEq, Repr

def Predicate.text : Predicate → Text
  | .syntactic => "=>"
  | .firstToken => "->"

/-- what stands around an element -/
structure Decoration where
  cardinality : Option Cardinality
  predicate : Option Predicate
  deriving DecidableEq, Repr

namespace Decoration

def none : Decoration := ⟨.none, .none⟩

def isNone (d : Decoration) : Bool :=
  d.cardinality.isNone && d.predicate.isNone

end Decoration

structure KeywordPart where
  decoration : Decoration
  value : Text
  deriving DecidableEq, Repr

/-- how the members of a compound element belong together; members of a `plain` one do not -/
inductive Gathering where
  | sequence
  | choice
  | anyOrder
  | plain
  deriving DecidableEq, Repr

/-- a node of a definition, with the nodes below it; `ρ` is what a call points at -/
inductive Element (ρ : Type) where
  | keyword (d : Decoration) (value : Text)
  | call (d : Decoration) (target : ρ)
  | assignment (d : Decoration) (feature operator : Text) (terminal : Element ρ)
  | crossReference (d : Decoration) (typeName : Text) (terminal : Option (Element ρ))
  | action (d : Decoration) (typeName : Text) (feature operator : Option Text)
  | compound (d : Decoration) (gathering : Gathering) (members : List (Element ρ))
  | range (d : Decoration) (left right : KeywordPart)
  | wildcard (d : Decoration)
  | endOfFile (d : Decoration)
  | negated (d : Decoration) (operand : Element ρ)
  | upTo (d : Decoration) (operand : Element ρ)
  | literal (d : Decoration) (name : Text) (keyword : Option KeywordPart)
  | bare (d : Decoration)

namespace Element

variable {ρ σ : Type}

def decoration : Element ρ → Decoration
  | keyword d _ => d
  | call d _ => d
  | assignment d _ _ _ => d
  | crossReference d _ _ => d
  | action d _ _ _ => d
  | compound d _ _ => d
  | range d _ _ => d
  | wildcard d => d
  | endOfFile d => d
  | negated d _ => d
  | upTo d _ => d
  | literal d _ _ => d
  | bare d => d

/-- the same node with something else around it -/
def decorated (d : Decoration) : Element ρ → Element ρ
  | keyword _ v => keyword d v
  | call _ t => call d t
  | assignment _ f o t => assignment d f o t
  | crossReference _ n t => crossReference d n t
  | action _ n f o => action d n f o
  | compound _ g es => compound d g es
  | range _ l r => range d l r
  | wildcard _ => wildcard d
  | endOfFile _ => endOfFile d
  | negated _ e => negated d e
  | upTo _ e => upTo d e
  | literal _ n k => literal d n k
  | bare _ => bare d

/-- a keyword part as a node of its own -/
def ofPart (k : KeywordPart) : Element ρ :=
  keyword k.decoration k.value

/-- the nodes directly below, from left to right -/
def children : Element ρ → List (Element ρ)
  | assignment _ _ _ t => [t]
  | crossReference _ _ t => t.toList
  | compound _ _ es => es
  | range _ l r => [ofPart l, ofPart r]
  | negated _ e => [e]
  | upTo _ e => [e]
  | literal _ _ k => (k.map ofPart).toList
  | _ => []

mutual

def size : Element ρ → Nat
  | assignment _ _ _ t => size t + 1
  | crossReference _ _ t => sizeOption t + 1
  | compound _ _ es => sizeList es + 1
  | range _ _ _ => 3
  | negated _ e => size e + 1
  | upTo _ e => size e + 1
  | literal _ _ k => k.toList.length + 1
  | keyword _ _ => 1
  | call _ _ => 1
  | action _ _ _ _ => 1
  | wildcard _ => 1
  | endOfFile _ => 1
  | bare _ => 1

/-- how many nodes a tree has, if there is one -/
def sizeOption : Option (Element ρ) → Nat
  | none => 0
  | some e => size e

/-- how many nodes a forest has -/
def sizeList : List (Element ρ) → Nat
  | [] => 0
  | e :: es => size e + sizeList es

end

theorem sizeList_append (xs ys : List (Element ρ)) : sizeList (xs ++ ys) = sizeList xs + sizeList ys := by
  induction xs with
  | nil => simp [sizeList]
  | cons e es ih => simp [sizeList, ih, Nat.add_assoc]

/-- a tree has its root and what is below -/
theorem size_eq (e : Element ρ) : size e = sizeList e.children + 1 := by
  cases e with
  | crossReference d n t => cases t <;> simp [size, sizeOption, children, sizeList]
  | literal d n k => cases k <;> simp [size, children, sizeList, ofPart]
  | range d l r => simp [size, children, sizeList, ofPart]
  | _ => simp [size, children, sizeList]

/-- the nodes of a forest, each before the nodes below it, from left to right -/
def walk : List (Element ρ) → List (Element ρ)
  | [] => []
  | e :: es => e :: walk (e.children ++ es)
termination_by pending => sizeList pending
decreasing_by
  rw [sizeList_append, sizeList, size_eq]
  omega

/-- the nodes of a tree, the root first -/
def nodes (e : Element ρ) : List (Element ρ) :=
  walk [e]

/-- what the node points at, if it is a call -/
def target? : Element ρ → Option ρ
  | call _ t => some t
  | _ => none

/-- the name of an enumeration literal and the text it is written as, its keyword or else its name -/
def literal? : Element ρ → Option (Text × Text)
  | literal _ name none => some (name, name)
  | literal _ name (some k) => some (name, k.value)
  | _ => none

/-- what the calls of a tree point at, in the order of the nodes -/
def calls (e : Element ρ) : List ρ :=
  e.nodes.filterMap target?

mutual

/-- the same tree with other targets -/
def map (f : ρ → σ) : Element ρ → Element σ
  | keyword d v => keyword d v
  | call d t => call d (f t)
  | assignment d n o t => assignment d n o (map f t)
  | crossReference d n t => crossReference d n (mapOption f t)
  | action d n ft o => action d n ft o
  | compound d g es => compound d g (mapList f es)
  | range d l r => range d l r
  | wildcard d => wildcard d
  | endOfFile d => endOfFile d
  | negated d e => negated d (map f e)
  | upTo d e => upTo d (map f e)
  | literal d n k => literal d n k
  | bare d => bare d

/-- the same tree with other targets, if there is one -/
def mapOption (f : ρ → σ) : Option (Element ρ) → Option (Element σ)
  | none => none
  | some e => some (map f e)

/-- the same trees with other targets -/
def mapList (f : ρ → σ) : List (Element ρ) → List (Element σ)
  | [] => []
  | e :: es => map f e :: mapList f es

end

/-- the node reached by taking the child at each index in turn -/
def descend? (e : Element ρ) : List Nat → Option (Element ρ)
  | [] => some e
  | i :: path => (e.children[i]?).bind fun c => descend? c path

end Element

end Rulebook
