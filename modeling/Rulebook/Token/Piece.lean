/-
A grammar file cut into pieces. A piece is a token or something between tokens: one blank, a line comment or a block
comment. The pieces follow one another without a gap, so the text of a grammar file is the texts of its pieces in order.

A block comment that begins with two stars is a token of its own, a head comment; only the empty comment of two stars is
not. Names and the first code point of a symbol are ASCII, numbers are decimal digits of any script.
-/
import Rulebook.SyntaxError
import Rulebook.Text.Digits
import Rulebook.Token.Literal

namespace Rulebook

/-- a stretch of the source; `token` is the kind and value of a token, absent between tokens -/
structure Piece where
  text : Text
  token : Option (TokenKind × Text)
  deriving DecidableEq, Repr

namespace Piece

/-- why no piece begins here; `left` counts the code points from the fault to the end of the text -/
structure Fault where
  cause : SyntaxCause
  left : Nat
  deriving DecidableEq, Repr

/-- a letter of the ASCII alphabet or the underscore -/
def isNameStart (c : CodePoint) : Bool :=
  c.inRanges [(0x41, 0x5A), (0x5F, 0x5F), (0x61, 0x7A)]

def isNamePart (c : CodePoint) : Bool :=
  isNameStart c || c.inRanges [(0x30, 0x39)]

def isGap (c : CodePoint) : Bool :=
  c = ' ' || c = '\t' || c = '\r' || c = '\n'

/-- how many code points there are up to the end of a block comment, its closing mark included -/
def commentLength? : Text → Option Nat
  | [] => none
  | [_] => none
  | c :: d :: rest =>
    if c = '*' ∧ d = '/' then some 2 else (commentLength? (d :: rest)).map (· + 1)

/-- the token that a block comment makes, if it is a head comment -/
def headComment? (comment : Text) : Option (TokenKind × Text) :=
  if comment.startsWith "/**" && comment ≠ Text.ofString "/**/" then some (.headComment, comment) else none

def symbol? (c : CodePoint) (rest : Text) : Option Symbol :=
  (Symbol.double ++ Symbol.single).find? fun s => Text.startsWith (c :: rest) s.spelling

/-- a name and how many code points of `rest` belong to it; a caret in front is not part of its value -/
def name? (c : CodePoint) (rest : Text) : Option (Text × Nat) :=
  if c = '^' then
    match rest with
    | [] => none
    | d :: more =>
      if isNameStart d then
        let tail := more.takeWhile isNamePart
        some (d :: tail, tail.length + 1)
      else none
  else if isNameStart c then
    let tail := rest.takeWhile isNamePart
    some (c :: tail, tail.length)
  else none

/-- what begins with `c` and how many code points of `rest` belong to it -/
def first (c : CodePoint) (rest : Text) : Except Fault (Option (TokenKind × Text) × Nat) :=
  if isGap c then .ok (none, 0)
  else if c = '/' ∧ rest.head? = some (CodePoint.ofChar '/') then
    .ok (none, (rest.takeWhile fun (d : CodePoint) => d ≠ '\n').length)
  else if c = '/' ∧ rest.head? = some (CodePoint.ofChar '*') then
    match commentLength? (rest.drop 1) with
    | none => .error ⟨.openComment, rest.length + 1⟩
    | some n => .ok (headComment? (c :: rest.take (n + 1)), n + 1)
  else if c = '\'' ∨ c = '"' then
    match Literal.read c rest with
    | .ok (value, n) => .ok (some (.literal, value), n)
    | .error .unterminated => .error ⟨.openLiteral, rest.length + 1⟩
    | .error (.badEscape left) => .error ⟨.badEscape, left⟩
  else if c.isDigit then
    let tail := rest.takeWhile CodePoint.isDigit
    .ok (some (.number, c :: tail), tail.length)
  else
    match name? c rest with
    | some (value, n) => .ok (some (.name, value), n)
    | none =>
      match symbol? c rest with
      | some s => .ok (some (.symbol s, s.spelling), s.spelling.length - 1)
      | none => .error ⟨.strayCharacter c, rest.length + 1⟩

def cut : Text → Except Fault (List Piece)
  | [] => .ok []
  | c :: rest =>
    match first c rest with
    | .error fault => .error fault
    | .ok (token, n) =>
      match cut (rest.drop n) with
      | .error fault => .error fault
      | .ok pieces => .ok (⟨c :: rest.take n, token⟩ :: pieces)
termination_by s => s.length
decreasing_by
  simp only [List.length_drop, List.length_cons]
  omega

/-- the pieces of a text are the text -/
theorem flatMap_text_of_cut {source : Text} {pieces : List Piece} (h : cut source = .ok pieces) :
    pieces.flatMap Piece.text = source := by
  fun_induction cut source generalizing pieces with
  | case1 => cases h; rfl
  | case2 => cases h
  | case3 => cases h
  | case4 c rest token n hfirst more hmore ih =>
    cases h
    simp [ih hmore]

end Piece

end Rulebook
