/-
The words of a grammar file: its tokens with every head comment moved to the token behind it, so that comments cannot
disturb the rules of the language. Words are read from the front; small readers for tokens, names and lists of names are
put together to those of the language. When no word is left the text has stopped; a fault there has no token of its own.
-/
import Rulebook.Reading
import Rulebook.SyntaxError

namespace Rulebook.Source

/-- a token with the last head comment that stands right before it -/
structure Word where
  token : Token
  comment : Option Text
  deriving DecidableEq, Repr

/-- the words of some tokens, behind a head comment that has no token yet -/
def wordsBehind (comment : Option Text) : List Token → List Word
  | [] => []
  | t :: ts =>
    if t.kind = .headComment then wordsBehind (some t.value) ts
    else ⟨t, comment⟩ :: wordsBehind none ts

def wordsOf (tokens : List Token) : List Word :=
  wordsBehind none tokens

/-- a complaint, the token it is about (none when the text has stopped), and the grammar's name once it is known -/
structure Fault where
  complaint : Complaint
  found : Option Token
  grammar : Option Text
  deriving DecidableEq, Repr

/-- what is read from the front of some words, or the fault that prevents it -/
abbrev Reading (α : Type) (takes : Bool) (words : List Word) :=
  Rulebook.Reading Fault Word α takes words

def complain {α : Type} (words : List Word) (complaint : Complaint) : Except Fault α :=
  .error ⟨complaint, words.head?.map Word.token, none⟩

def atSymbol (s : Symbol) : List Word → Bool
  | [] => false
  | w :: _ => w.token.isSymbol s

/-- the next word is a name with this spelling -/
def atWord (word : Text) : List Word → Bool
  | [] => false
  | w :: _ => w.token.isWord word

def atName : List Word → Bool
  | [] => false
  | w :: _ => w.token.kind = .name

def atLiteral : List Word → Bool
  | [] => false
  | w :: _ => w.token.kind = .literal

/-- the head comment right before the next word -/
def commentHere (words : List Word) : Option Text :=
  words.head?.bind Word.comment

def takeIf (wanted : Token → Bool) (complaint : Complaint) (words : List Word) : Reading Token true words :=
  match words with
  | [] => complain [] complaint
  | w :: rest =>
    if wanted w.token then .ok ((Step.first w rest).map Word.token) else complain (w :: rest) complaint

/-- read a token of a kind; `what` names it in the complaint -/
def take (kind : TokenKind) (what : Text) (words : List Word) : Reading Token true words :=
  takeIf (fun t => t.kind = kind) (.expected what) words

/-- read a symbol; in a complaint it stands in quotes -/
def takeSymbol (s : Symbol) (words : List Word) : Reading Token true words :=
  take (.symbol s) ("'" ++ s.spelling ++ "'") words

def takeWord (word : Text) (words : List Word) : Reading Token true words :=
  takeIf (fun t => t.isWord word) (.expectedWord word) words

def behindSymbol? {α : Type} {takes : Bool} (s : Symbol) (read : (r : List Word) → Reading α takes r)
    (words : List Word) : Reading (Option α) false words :=
  Reading.behindMark? (fun w => w.token.isSymbol s) read words

/-- what stands behind a name with a given spelling, if that is next -/
def behindWord? {α : Type} {takes : Bool} (word : Text) (read : (r : List Word) → Reading α takes r)
    (words : List Word) : Reading (Option α) false words :=
  Reading.behindMark? (fun w => w.token.isWord word) read words

/-- what stands behind each of several symbols of one kind, as many as there are -/
def behindSymbols {α : Type} {takes : Bool} (s : Symbol) (words : List Word)
    (read : (r : List Word) → r.length < words.length → Reading α takes r) : Reading (List α) false words :=
  Reading.behindMarks (fun w => w.token.isSymbol s) read words (Nat.le_refl words.length)

/-- one or more of a kind, with a symbol between neighbours -/
def oneOrMore {α : Type} (s : Symbol) (read : (r : List Word) → Reading α true r) (words : List Word) :
    Reading (List α) true words :=
  (read words).next fun first tail _ => (behindSymbols s tail fun r _ => read r).map (first :: ·)

/-- read a name, and a second one behind two colons; both are what `what` names -/
def qualified (what : Text) (words : List Word) : Reading (Token × Option Token) true words :=
  (take .name what words).next fun first tail _ => (behindSymbol? .doubleColon (take .name what) tail).map (first, ·)

/-- a name as written, with its qualifier -/
def writtenName : Token × Option Token → Text
  | (first, none) => first.value
  | (first, some second) => first.value ++ "::" ++ second.value

def typeRef (words : List Word) : Reading Text true words :=
  (qualified "type name" words).map writtenName

def ruleName (words : List Word) : Reading Text true words :=
  (qualified "rule name" words).map writtenName

end Rulebook.Source
