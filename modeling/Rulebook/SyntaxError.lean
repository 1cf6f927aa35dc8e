/-
What can be wrong with the text of a grammar. A cause is a value; `SyntaxCause.message` is its wording and a
`SyntaxError` adds the place. Every error that reading a text gives is of this kind.
-/
import Rulebook.Place
import Rulebook.Text.Quoted
import Rulebook.Token.Basic

namespace Rulebook

/-- what is missing or out of place where a token stands -/
inductive Complaint where
  | expected (what : Text)
  | expectedWord (word : Text)
  | expectedElement
  | expectedAssignable (operator : Text)
  | expectedOperator
  | unexpected
  | bareCrossReference
  | callArguments
  | ruleParameters
  deriving DecidableEq, Repr

/-- why a text is not a grammar: it cannot be cut into tokens, or a token stands where it must not -/
inductive SyntaxCause where
  | openComment
  | openLiteral
  | badEscape
  | strayCharacter (c : CodePoint)
  | misplaced (complaint : Complaint) (found : Token)
  deriving DecidableEq, Repr

/-- a token as messages name it: its value in quotes, or its kind when it has no value -/
def Token.shown (t : Token) : Text :=
  if t.value = [] then t.kind.label else Text.quoted t.value

def Complaint.message (found : Token) : Complaint → Text
  | .expected what => "Expected " ++ what ++ ", got " ++ found.shown
  | .expectedWord word => "Expected '" ++ word ++ "'"
  | .expectedElement => "Expected a grammar element, got " ++ found.shown
  | .expectedAssignable operator => "Expected assignable element after '" ++ operator ++ "'"
  | .expectedOperator => "Expected '=' or '+=' in action"
  | .unexpected => "Unexpected " ++ found.shown
  | .bareCrossReference => "Cross references are only allowed in assignments"
  | .callArguments => "Rule call arguments are not supported"
  | .ruleParameters => "Parameterized rules are not supported"

def SyntaxCause.message : SyntaxCause → Text
  | .openComment => "Unterminated block comment"
  | .openLiteral => "Unterminated string literal"
  | .badEscape => "Invalid unicode escape"
  | .strayCharacter c => "Unexpected character " ++ Text.quoted [c]
  | .misplaced complaint found => complaint.message found

structure SyntaxError where
  cause : SyntaxCause
  place : Place
  deriving DecidableEq, Repr

/-- the whole message: the place, its lines, and the cause -/
def SyntaxError.message (e : SyntaxError) : Text :=
  e.place.report e.cause.message

end Rulebook
