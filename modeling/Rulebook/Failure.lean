/-
What objects refuse. An object is asked for a part that it does not have; a rule of a kind that nothing documents is
refused by name, while a document as a whole goes on without it; and objects of other libraries may fail with anything.
-/
import Rulebook.Text.Quoted

namespace Rulebook

/-- a part that an object is asked for and does not have -/
structure MissingPart where
  className : Text
  part : Text
  deriving DecidableEq, Repr

def MissingPart.message (m : MissingPart) : Text :=
  "'" ++ m.className ++ "' object has no attribute '" ++ m.part ++ "'"

/-- why an object is not documented: the rule is of a kind that nothing documents, or the object cannot be put into a
document, or not into a graph. `variety` names the kind of the rule or object -/
inductive Unsupported where
  | rule (name variety : Text)
  | document (name variety : Text)
  | draw (name variety : Text)
  deriving DecidableEq, Repr

def Unsupported.message : Unsupported → Text
  | .rule name variety => "Rule " ++ Text.quoted name ++ " has unsupported kind " ++ variety
  | .document name variety => "Cannot document " ++ name ++ ": unsupported rule kind " ++ variety
  | .draw name variety => "Cannot draw " ++ name ++ ": unsupported rule kind " ++ variety

/-- what an object fails with that anyone may have made: a part is missing, or something else, of a kind and with a
wording of its own -/
inductive Failure where
  | missing (part : MissingPart)
  | other (kind message : Text)
  deriving DecidableEq, Repr

def Failure.message : Failure → Text
  | .missing part => part.message
  | .other _ message => message

end Rulebook
