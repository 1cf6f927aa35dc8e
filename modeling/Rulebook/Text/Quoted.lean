/-
Texts quoted inside messages. The quote is the apostrophe unless the text holds an apostrophe and no double quote; the
quote and the backslash are escaped, line feeds, returns and tabs by letter, everything else that is not printable by
its number, in as few digits as two, four or eight allow.
-/
import Rulebook.Text.Printable

namespace Rulebook.Text

/-- a number in base sixteen, lower case, with at least `width` digits -/
def hex (width : Nat) (n : Nat) : Text :=
  let digits := (Nat.toDigits 16 n).map CodePoint.ofChar
  List.replicate (width - digits.length) (CodePoint.ofChar '0') ++ digits

def quoteFor (t : Text) : CodePoint :=
  if t.contains '\'' && !t.contains '"' then '"' else '\''

def quotedPoint (quote c : CodePoint) : Text :=
  if c = quote ∨ c = '\\' then ['\\', c]
  else if c = '\n' then "\\n"
  else if c = '\r' then "\\r"
  else if c = '\t' then "\\t"
  else if c.isPrintable then [c]
  else if c.val < 0x100 then "\\x" ++ hex 2 c.val
  else if c.val < 0x10000 then "\\u" ++ hex 4 c.val
  else "\\U" ++ hex 8 c.val

def quoted (t : Text) : Text :=
  quoteFor t :: t.flatMap (quotedPoint (quoteFor t)) ++ [quoteFor t]

end Rulebook.Text
