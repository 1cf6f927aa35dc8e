/-
Digits. A decimal digit may be of any script. A number in base sixteen, as it may stand behind an escape, has white space
around it, a sign, a `0x` in front, and single underscores between its digits; `number16?` reads a text that is such a
number as a whole.
-/
import Rulebook.Text.Blank

namespace Rulebook

namespace CodePoint

/-- the digits zero of all scripts (Unicode 14). The digits of a script stand in a row from zero to nine -/
def digitZeros : List Nat := [
  0x30, 0x660, 0x6F0, 0x7C0, 0x966, 0x9E6, 0xA66, 0xAE6, 0xB66, 0xBE6, 0xC66, 0xCE6, 0xD66, 0xDE6, 0xE50, 0xED0,
  0xF20, 0x1040, 0x1090, 0x17E0, 0x1810, 0x1946, 0x19D0, 0x1A80, 0x1A90, 0x1B50, 0x1BB0, 0x1C40, 0x1C50, 0xA620,
  0xA8D0, 0xA900, 0xA9D0, 0xA9F0, 0xAA50, 0xABF0, 0xFF10, 0x104A0, 0x10D30, 0x11066, 0x110F0, 0x11136, 0x111D0,
  0x112F0, 0x11450, 0x114D0, 0x11650, 0x116C0, 0x11730, 0x118E0, 0x11950, 0x11C50, 0x11D50, 0x11DA0, 0x16A60,
  0x16AC0, 0x16B50, 0x1D7CE, 0x1D7D8, 0x1D7E2, 0x1D7EC, 0x1D7F6, 0x1E140, 0x1E2F0, 0x1E950, 0x1FBF0]

def digitValue? (c : CodePoint) : Option Nat :=
  (digitZeros.find? fun z => decide (z ≤ c.val) && decide (c.val ≤ z + 9)).map fun z => c.val - z

def isDigit (c : CodePoint) : Bool :=
  c.digitValue?.isSome

def hexValue? (c : CodePoint) : Option Nat :=
  if c.inRanges [(0x61, 0x66)] then some (c.val - 0x61 + 10)
  else if c.inRanges [(0x41, 0x46)] then some (c.val - 0x41 + 10)
  else c.digitValue?

end CodePoint

namespace Text

/-- white space that may stand around a number; the information separators may not -/
def aroundNumber (c : CodePoint) : Bool :=
  c.isBlank && !c.inRanges [(0x1C, 0x1F)]

/-- digits with single underscores between them, behind the digits already read -/
def digits16? (read : Nat) : Text → Option Nat
  | [] => some read
  | c :: rest =>
    match c.hexValue? with
    | some d => digits16? (16 * read + d) rest
    | none =>
      if c = '_' then
        match rest with
        | [] => none
        | e :: more =>
          match e.hexValue? with
          | some d => digits16? (16 * read + d) more
          | none => none
      else none

def magnitude16? : Text → Option Nat
  | [] => none
  | c :: rest => c.hexValue?.bind fun d => digits16? d rest

/-- the number without its sign; an underscore may stand behind the `0x`, whose zero may be that of any script -/
def unsigned16? : Text → Option Nat
  | [] => none
  | [c] => magnitude16? [c]
  | c :: d :: rest =>
    if c.digitValue? = some 0 ∧ (d = 'x' ∨ d = 'X') then magnitude16? ((after? "_" rest).getD rest)
    else magnitude16? (c :: d :: rest)

/-- a whole number in base sixteen -/
def number16? (t : Text) : Option Int :=
  let core := ((t.dropWhile aroundNumber).reverse.dropWhile aroundNumber).reverse
  match core with
  | [] => none
  | c :: rest =>
    if c = '-' then (unsigned16? rest).map fun n => -(n : Int)
    else if c = '+' then (unsigned16? rest).map fun n => (n : Int)
    else (unsigned16? core).map fun n => (n : Int)

def escapedPoint? (t : Text) : Option CodePoint :=
  (number16? t).bind fun n => if n < 0 then none else CodePoint.ofNat? n.toNat

end Text

end Rulebook
