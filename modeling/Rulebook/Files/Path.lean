/-
Paths. A path is a root and the names below it; empty names and single dots vanish when a path is read, two dots stay.
Two slashes in front are a root of their own, any other number above zero is the plain root. Joining keeps the right
path alone when it has a root.
-/
import Rulebook.Text.Basic

namespace Rulebook

inductive Root where
  | working
  | slash
  | doubleSlash
  deriving DecidableEq, Repr

/-- a path by its names -/
structure Path where
  root : Root
  parts : List Text
  deriving DecidableEq, Repr

namespace Path

/-- how a path starts in writing -/
def rootOf (t : Text) : Root :=
  match (t.takeWhile fun (c : CodePoint) => c = '/').length with
  | 0 => .working
  | 2 => .doubleSlash
  | _ => .slash

def ofText (t : Text) : Path :=
  ⟨rootOf t, (Text.splitOn '/' t).filter fun part => decide (part ≠ []) && decide (part ≠ Text.ofString ".")⟩

instance : Coe String Path := ⟨fun s => ofText s⟩

def Root.text : Root → Text
  | .working => []
  | .slash => "/"
  | .doubleSlash => "//"

/-- a path in writing; a path without names and root is a dot -/
def text (p : Path) : Text :=
  match p.root, p.parts with
  | .working, [] => "."
  | root, parts => Root.text root ++ Text.join "/" parts

/-- `q` seen from the directory `p` -/
def join (p q : Path) : Path :=
  match q.root with
  | .working => ⟨p.root, p.parts ++ q.parts⟩
  | _ => q

/-- a path below the directory `p`, by its text -/
def child (p : Path) (t : Text) : Path :=
  p.join (ofText t)

/-- the directory that holds the last name; a path without names is its own -/
def parent (p : Path) : Path :=
  ⟨p.root, p.parts.dropLast⟩

/-- the last name, empty when there is none -/
def fileName (p : Path) : Text :=
  p.parts.getLastD []

def isAbsolute (p : Path) : Bool :=
  p.root ≠ .working

/-- a path can be named to a system when no zero stands in it -/
def isNameable (p : Path) : Bool :=
  p.parts.all fun part => part.all fun (c : CodePoint) => c.val ≠ 0

/-- the wording for a path that cannot be named to a system -/
def unnameable : Text := "embedded null byte"

theorem join_working (p : Path) (parts : List Text) : p.join ⟨.working, parts⟩ = ⟨p.root, p.parts ++ parts⟩ := rfl

end Path

end Rulebook
