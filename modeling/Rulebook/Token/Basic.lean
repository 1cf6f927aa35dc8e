/-
Tokens of a grammar file: names, literals, numbers, head comments and symbols. A token knows the value it stands for,
the line and column where it begins and how many code points it takes up in the text.
-/
import Rulebook.Text.Basic

namespace Rulebook

inductive Symbol where
  | colon
  | doubleColon
  | semicolon
  | bar
  | ampersand
  | openParen
  | closeParen
  | openBracket
  | closeBracket
  | openBrace
  | closeBrace
  | less
  | greater
  | comma
  | dot
  | doubleDot
  | question
  | star
  | plus
  | equals
  | plusEquals
  | questionEquals
  | arrow
  | fatArrow
  | bang
  | atSign
  deriving DecidableEq, Repr

namespace Symbol

def spelling : Symbol → Text
  | .colon => ":"
  | .doubleColon => "::"
  | .semicolon => ";"
  | .bar => "|"
  | .ampersand => "&"
  | .openParen => "("
  | .closeParen => ")"
  | .openBracket => "["
  | .closeBracket => "]"
  | .openBrace => "\x7b"
  | .closeBrace => "\x7d"
  | .less => "<"
  | .greater => ">"
  | .comma => ","
  | .dot => "."
  | .doubleDot => ".."
  | .question => "?"
  | .star => "*"
  | .plus => "+"
  | .equals => "="
  | .plusEquals => "+="
  | .questionEquals => "?="
  | .arrow => "->"
  | .fatArrow => "=>"
  | .bang => "!"
  | .atSign => "@"

def label : Symbol → Text
  | .colon => "colon"
  | .doubleColon => "coloncolon"
  | .semicolon => "semicolon"
  | .bar => "pipe"
  | .ampersand => "ampersand"
  | .openParen => "lparen"
  | .closeParen => "rparen"
  | .openBracket => "lbracket"
  | .closeBracket => "rbracket"
  | .openBrace => "lbrace"
  | .closeBrace => "rbrace"
  | .less => "lt"
  | .greater => "gt"
  | .comma => "comma"
  | .dot => "dot"
  | .doubleDot => "dotdot"
  | .question => "question"
  | .star => "star"
  | .plus => "plus"
  | .equals => "eq"
  | .plusEquals => "plus_eq"
  | .questionEquals => "question_eq"
  | .arrow => "arrow"
  | .fatArrow => "fat_arrow"
  | .bang => "bang"
  | .atSign => "at"

def double : List Symbol :=
  [.doubleColon, .doubleDot, .plusEquals, .questionEquals, .arrow, .fatArrow]

def single : List Symbol :=
  [.colon, .semicolon, .bar, .ampersand, .openParen, .closeParen, .openBracket, .closeBracket, .openBrace, .closeBrace,
    .less, .greater, .comma, .dot, .question, .star, .plus, .equals, .bang, .atSign]

end Symbol

inductive TokenKind where
  | name
  | literal
  | number
  | headComment
  | symbol (s : Symbol)
  | stop
  deriving DecidableEq, Repr

def TokenKind.label : TokenKind → Text
  | .name => "id"
  | .literal => "string"
  | .number => "int"
  | .headComment => "doc_comment"
  | .symbol s => s.label
  | .stop => "eof"

structure Token where
  kind : TokenKind
  value : Text
  line : Nat
  column : Nat
  length : Nat
  deriving DecidableEq, Repr

namespace Token

/-- a name with this spelling; a name escaped by a caret counts as well -/
def isWord (t : Token) (word : Text) : Bool :=
  t.kind = .name && t.value = word

def isSymbol (t : Token) (s : Symbol) : Bool :=
  t.kind = .symbol s

end Token

end Rulebook
