/-
String literals. A literal runs from its opening quote to the next quote of the same kind that no backslash precedes,
and holds no bare line feed. Behind a backslash stand a letter for a control character, `u` with four code points that
name a number in base sixteen, or any other code point, which then stands for itself.
-/
import Rulebook.Text.Digits

namespace Rulebook.Literal

/-- why a literal cannot be read: it is not closed, or an escape names no code point. The second carries how many code
points are left from the backslash on -/
inductive Fault where
  | unterminated
  | badEscape (left : Nat)
  deriving DecidableEq, Repr

/-- what a code point stands for behind a backslash -/
def escaped (c : CodePoint) : CodePoint :=
  if c = 'n' then '\n'
  else if c = 't' then '\t'
  else if c = 'r' then '\r'
  else if c = 'b' then '\x08'
  else if c = 'f' then '\x0c'
  else c

/-- put a code point that takes up `width` code points of the source before the rest of a literal -/
def push (c : CodePoint) (width : Nat) : Except Fault (Text × Nat) → Except Fault (Text × Nat)
  | .ok (value, taken) => .ok (c :: value, taken + width)
  | .error fault => .error fault

/-- the value of a literal and how many code points it takes up, from behind the opening quote to the closing one -/
def read (quote : CodePoint) : Text → Except Fault (Text × Nat)
  | [] => .error .unterminated
  | c :: rest =>
    if c = '\\' then
      match rest with
      | [] => .error .unterminated
      | e :: more =>
        if e = 'u' then
          match more with
          | a :: b :: c :: d :: behind =>
            match Text.escapedPoint? [a, b, c, d] with
            | none => .error (.badEscape (behind.length + 6))
            | some p => push p 6 (read quote behind)
          | few => push e 2 (read quote few)
        else push (escaped e) 2 (read quote more)
    else if c = quote then .ok ([], 1)
    else if c = '\n' then .error .unterminated
    else push c 1 (read quote rest)

end Rulebook.Literal
