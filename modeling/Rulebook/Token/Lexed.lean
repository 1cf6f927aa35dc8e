/-
Positions. Walking over the pieces of a text gives each token its line and column. Lines are counted by line feeds,
also inside comments; a literal moves the column only. The position behind the last piece is where the text stops.
-/
import Rulebook.Token.Piece

namespace Rulebook

/-- a position: line and column, both from one -/
structure Mark where
  line : Nat
  column : Nat
  deriving DecidableEq, Repr

namespace Mark

def start : Mark := ⟨1, 1⟩

def step (m : Mark) (c : CodePoint) : Mark :=
  if c = '\n' then ⟨m.line + 1, 1⟩ else ⟨m.line, m.column + 1⟩

def after (m : Mark) (t : Text) : Mark :=
  t.foldl step m

def afterPiece (m : Mark) (p : Piece) : Mark :=
  match p.token with
  | some (.literal, _) => ⟨m.line, m.column + p.text.length⟩
  | _ => m.after p.text

end Mark

/-- a text as tokens, and the position where it stops -/
structure Lexed where
  tokens : List Token
  stop : Mark
  deriving DecidableEq, Repr

namespace Lexed

/-- the tokens among some pieces that begin at a position -/
def ofPieces (m : Mark) : List Piece → Lexed
  | [] => ⟨[], m⟩
  | p :: more =>
    let behind := ofPieces (m.afterPiece p) more
    match p.token with
    | none => behind
    | some (kind, value) => ⟨⟨kind, value, m.line, m.column, p.text.length⟩ :: behind.tokens, behind.stop⟩

/-- the token that stands for the end of the text -/
def stopToken (l : Lexed) : Token :=
  ⟨.stop, [], l.stop.line, l.stop.column, 0⟩

/-- all tokens, the one for the end included -/
def all (l : Lexed) : List Token :=
  l.tokens ++ [l.stopToken]

/-- the place of a fault, counted over the whole text before it -/
def placeOf (file : Path) (source : Text) (fault : Piece.Fault) : Place :=
  let m := Mark.start.after (source.take (source.length - fault.left))
  ⟨file, m.line, m.column, 1, some (snippetAt source m.line), none⟩

def ofSource (file : Path) (source : Text) : Except SyntaxError Lexed :=
  match Piece.cut source with
  | .ok pieces => .ok (ofPieces Mark.start pieces)
  | .error fault => .error ⟨fault.cause, placeOf file source fault⟩

theorem ofSource_eq_ok_iff {file : Path} {source : Text} {l : Lexed} :
    ofSource file source = .ok l ↔ ∃ ps, Piece.cut source = .ok ps ∧ ofPieces Mark.start ps = l := by
  unfold ofSource
  cases Piece.cut source with
  | error fault => simp
  | ok ps => simp

end Lexed

end Rulebook
