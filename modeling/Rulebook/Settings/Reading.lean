/-
Reading settings from a value. Every field may be missing; one that is there must have a fitting value, and other
fields are not permitted. All problems are told: those of the known fields in their order, each with the problems
inside it, then the unknown fields as they come. A problem names the place it is found at by the keys and positions
that lead there.
-/
import Rulebook.Data.Value
import Rulebook.Settings.Basic

namespace Rulebook

inductive PlaceStep where
  | field (name : Text)
  | item (position : Nat)
  deriving DecidableEq, Repr

def PlaceStep.text : PlaceStep → Text
  | .field name => name
  | .item position => Text.ofNat position

/-- what is wrong with a value -/
inductive Mismatch where
  | notText
  | notPath
  | notList
  | notBoolean
  | unclearBoolean
  | notDirection
  | notTable (owner : Text)
  | unknownField
  deriving DecidableEq, Repr

def Mismatch.message : Mismatch → Text
  | .notText => "Input should be a valid string"
  | .notPath => "Input is not a valid path for <class 'pathlib.Path'>"
  | .notList => "Input should be a valid list"
  | .notBoolean => "Input should be a valid boolean"
  | .unclearBoolean => "Input should be a valid boolean, unable to interpret input"
  | .notDirection => "Input should be 'LR', 'TB', 'RL' or 'BT'"
  | .notTable owner => "Input should be a valid dictionary or instance of " ++ owner
  | .unknownField => "Extra inputs are not permitted"

structure Problem where
  place : List PlaceStep
  mismatch : Mismatch
  deriving DecidableEq, Repr

namespace Problem

def text (p : Problem) : Text :=
  Text.join "." (p.place.map PlaceStep.text) ++ ": " ++ p.mismatch.message

/-- a problem seen from one step further out -/
def below (s : PlaceStep) (p : Problem) : Problem :=
  { p with place := s :: p.place }

end Problem

/-- a value, or all that is wrong with what was to be it -/
abbrev Checked (α : Type) := Except (List Problem) α

namespace Checked

def fail {α : Type} (m : Mismatch) : Checked α :=
  .error [⟨[], m⟩]

/-- what is wrong; nothing when there is a value -/
def problems {α : Type} : Checked α → List Problem
  | .ok _ => []
  | .error ps => ps

/-- what is wrong, seen from one step further out -/
def below {α : Type} (s : PlaceStep) (c : Checked α) : Checked α :=
  c.mapError fun ps => ps.map (Problem.below s)

/-- two values, or what is wrong with the first and then with the second -/
def both {α β : Type} (a : Checked α) (b : Checked β) : Checked (α × β) :=
  match a, b with
  | .ok a, .ok b => .ok (a, b)
  | a, b => .error (a.problems ++ b.problems)

/-- a value for each of the items, or all that is wrong, place by place from a position on -/
def each {α : Type} (read : Value → Checked α) (position : Nat) : List Value → Checked (List α)
  | [] => .ok []
  | v :: vs => (both ((read v).below (.item position)) (each read (position + 1) vs)).map fun (a, as) => a :: as

/-- the value of a field, or what holds when it is missing -/
def field {α : Type} (t : Table) (name : Text) (standard : α) (read : Value → Checked α) : Checked α :=
  match t.lookup name with
  | none => .ok standard
  | some v => (read v).below (.field name)

/-- the table has no other fields than these -/
def only (known : List Text) (t : Table) : Checked Unit :=
  match (t.map Prod.fst).filter fun name => !known.contains name with
  | [] => .ok ()
  | unknown => .error (unknown.map fun name => ⟨[.field name], .unknownField⟩)

end Checked

namespace Value

def yesWords : List Text := ["1", "true", "t", "yes", "y", "on"].map Text.ofString

def noWords : List Text := ["0", "false", "f", "no", "n", "off"].map Text.ofString

/-- a letter of the ASCII alphabet in lower case -/
def lowerLetter (c : CodePoint) : CodePoint :=
  if c.inRanges [(0x41, 0x5A)] then (CodePoint.ofNat? (c.val + 32)).getD c else c

/-- the truth value that a number means; `bounds` are the numbers that could mean one -/
def booleanOfWhole (bounds : Int → Bool) (n : Int) : Checked Bool :=
  if n = 0 then .ok false
  else if n = 1 then .ok true
  else if bounds n then .fail .unclearBoolean
  else .fail .notBoolean

/-- the first number that is too large for 64 bits with a sign -/
def wordLimit : Int := 9223372036854775808

/-- a truth value, also as a word or a number; words have any case -/
def boolean : Value → Checked Bool
  | bool b => .ok b
  | text t =>
    let word := t.map lowerLetter
    if word ∈ yesWords then .ok true else if word ∈ noWords then .ok false else .fail .unclearBoolean
  | whole n => booleanOfWhole (fun n => decide (-wordLimit ≤ n) && decide (n < wordLimit)) n
  | decimal d =>
    match d.whole? with
    | some n => booleanOfWhole (fun n => decide (-wordLimit < n) && decide (n < wordLimit)) n
    | none => .fail .notBoolean
  | _ => .fail .notBoolean

def string : Value → Checked Text
  | text t => .ok t
  | _ => .fail .notText

def path : Value → Checked Path
  | text t => .ok (Path.ofText t)
  | _ => .fail .notPath

def paths : Value → Checked (List Path)
  | list vs => Checked.each path 0 vs
  | _ => .fail .notList

def direction : Value → Checked Direction
  | text t =>
    match Direction.ofText? t with
    | some d => .ok d
    | none => .fail .notDirection
  | _ => .fail .notDirection

end Value

namespace GraphSettings

def fieldNames : List Text := ["enabled", "deduplicate_edges", "direction"].map Text.ofString

def ofValue : Value → Checked GraphSettings
  | .table t =>
    let standard := Settings.standard.graph
    (Checked.both (Checked.field t "enabled" standard.enabled Value.boolean)
      (Checked.both (Checked.field t "deduplicate_edges" standard.deduplicateEdges Value.boolean)
        (Checked.both (Checked.field t "direction" standard.direction Value.direction)
          (Checked.only fieldNames t)))).map
      fun (enabled, deduplicateEdges, direction, _) => ⟨enabled, deduplicateEdges, direction⟩
  | _ => .fail (.notTable "GraphConfig")

end GraphSettings

namespace Settings

def fieldNames : List Text := ["formatter", "output_dir", "search_paths", "include_syntax", "graph"].map Text.ofString

def ofValue : Value → Checked Settings
  | .table t =>
    (Checked.both (Checked.field t "formatter" standard.formatter Value.string)
      (Checked.both (Checked.field t "output_dir" standard.output Value.path)
        (Checked.both (Checked.field t "search_paths" standard.searchPaths Value.paths)
          (Checked.both (Checked.field t "include_syntax" standard.includeSyntax Value.boolean)
            (Checked.both (Checked.field t "graph" standard.graph GraphSettings.ofValue)
              (Checked.only fieldNames t)))))).map
      fun (formatter, output, searchPaths, includeSyntax, graph, _) =>
        ⟨formatter, output, searchPaths, includeSyntax, graph⟩
  | _ => .fail (.notTable "DocsConfig")

end Settings

end Rulebook
