/-
Numbers in TOML. Single underscores may stand between digits. A whole number is written in base ten, without a zero in
front, or behind `0x`, `0o` or `0b`; a fraction or an exponent makes a decimal number. Whole numbers in base ten have at
most 4300 digits.
-/
import Rulebook.Toml.Quoted

namespace Rulebook.Toml

/-- the most digits of a whole number in base ten -/
def digitLimit : Nat := 4300

/-- digits of a class with single underscores between them, behind a first one -/
def moreDigits (isDigit : CodePoint → Bool) : Text → Text × Text
  | [] => ([], [])
  | c :: rest =>
    if isDigit c then
      let (digits, behind) := moreDigits isDigit rest
      (c :: digits, behind)
    else if c = '_' ∧ (rest.head?.map isDigit).getD false then moreDigits isDigit rest
    else ([], c :: rest)

/-- one or more digits of a class, and the text behind them -/
def digits? (isDigit : CodePoint → Bool) : Text → Option (Text × Text)
  | [] => none
  | c :: rest =>
    if isDigit c then
      let (digits, behind) := moreDigits isDigit rest
      some (c :: digits, behind)
    else none

def numberOf (base : Nat) (digits : Text) : Nat :=
  digits.foldl (fun n c => base * n + (hexDigit? c).getD 0) 0

def isHexDigit (c : CodePoint) : Bool :=
  (hexDigit? c).isSome

/-- the marks of the other bases, each with the base and the class of its digits -/
def bases : List (Text × Nat × (CodePoint → Bool)) :=
  [(Text.ofString "0x", 16, isHexDigit), (Text.ofString "0o", 8, fun c => c.inRanges [(0x30, 0x37)]),
    (Text.ofString "0b", 2, fun c => c.inRanges [(0x30, 0x31)])]

/-- a whole number in another base, and the text behind it -/
def otherBase? (s : Text) : Option (Value × Text) :=
  bases.findSome? fun (mark, base, isDigit) => do
    let behind ← Text.after? mark s
    let (digits, rest) ← digits? isDigit behind
    some (.whole (numberOf base digits), rest)

/-- a sign, if one stands here: whether it is a minus, and the text behind it -/
def sign : Text → Bool × Text
  | [] => (false, [])
  | c :: rest => if c = '-' then (true, rest) else if c = '+' then (false, rest) else (false, c :: rest)

/-- digits before a point: a single zero, or digits that do not begin with one -/
def wholePart? : Text → Option (Text × Text)
  | [] => none
  | c :: rest => if c = '0' then some ([c], rest) else digits? isDigit (c :: rest)

/-- the digits behind a point, if one with digits stands here -/
def fraction? : Text → Option (Text × Text)
  | [] => none
  | c :: rest => if c = '.' then digits? isDigit rest else none

/-- an exponent, if one with digits stands here -/
def exponent? : Text → Option (Int × Text)
  | [] => none
  | c :: rest =>
    if c = 'e' ∨ c = 'E' then
      let (negative, magnitude) := sign rest
      (digits? isDigit magnitude).map fun (digits, behind) =>
        (if negative then -(numberOf 10 digits : Int) else numberOf 10 digits, behind)
    else none

def baseTen? (s : Text) : Option (Except Fault Value × Text) := do
  let (negative, magnitude) := sign s
  let (whole, rest) ← wholePart? magnitude
  let fraction := fraction? rest
  let (places, rest) := fraction.getD ([], rest)
  let exponent := exponent? rest
  let (power, rest) := exponent.getD (0, rest)
  if fraction.isNone ∧ exponent.isNone then
    let n : Int := numberOf 10 whole
    some (if digitLimit < whole.length then .error (.tooManyDigits whole.length)
      else .ok (.whole (if negative then -n else n)), rest)
  else some (.ok (.decimal (.finite negative (numberOf 10 (whole ++ places)) (power - places.length))), rest)

/-- the words for what is infinite or no number -/
def endlessWords : List Text :=
  ["inf", "nan", "-inf", "+inf", "-nan", "+nan"].map Text.ofString

def number? (s : Text) : Option (Except Fault Value × Text) :=
  match otherBase? s with
  | some (v, rest) => some (.ok v, rest)
  | none =>
    match baseTen? s with
    | some r => some r
    | none => (endlessWords.findSome? fun word => Text.after? word s).map fun rest => (.ok (.decimal .endless), rest)

end Rulebook.Toml
