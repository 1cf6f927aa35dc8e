/-
Dates and times in TOML. A date may be followed by a time and a time by its distance from universal time; what cannot be
read as the next part is left. A date that the calendar does not have is refused.
-/
import Rulebook.Toml.Basic

namespace Rulebook.Toml

/-- the number that digits make, if all are digits in base ten -/
def fixedDigits? (count : Nat) (s : Text) : Option (Nat × Text) :=
  let digits := s.take count
  if digits.length = count ∧ digits.all isDigit then
    some (digits.foldl (fun n c => 10 * n + (c.val - 0x30)) 0, s.drop count)
  else none

/-- a number of two digits within bounds -/
def twoDigits? (low high : Nat) (s : Text) : Option (Nat × Text) :=
  (fixedDigits? 2 s).filter fun (n, _) => decide (low ≤ n) && decide (n ≤ high)

/-- the text behind a mark, if it stands here -/
def mark? (c : CodePoint) : Text → Option Text
  | [] => none
  | d :: rest => if d = c then some rest else none

def calendarDate? (s : Text) : Option ((Nat × Nat × Nat) × Text) := do
  let (year, s) ← fixedDigits? 4 s
  let (month, s) ← (mark? '-' s).bind (twoDigits? 1 12)
  let (day, s) ← (mark? '-' s).bind (twoDigits? 1 31)
  some ((year, month, day), s)

def daysOf (year month : Nat) : Nat :=
  if month = 2 then
    if year % 4 = 0 ∧ (year % 100 ≠ 0 ∨ year % 400 = 0) then 29 else 28
  else if month = 4 ∨ month = 6 ∨ month = 9 ∨ month = 11 then 30
  else 31

def inCalendar : Nat × Nat × Nat → Bool
  | (year, month, day) => decide (1 ≤ year) && decide (day ≤ daysOf year month)

/-- the text behind the digits of a fraction, if one stands here -/
def skipFraction (s : Text) : Text :=
  match mark? '.' s with
  | none => s
  | some digits =>
    match fixedDigits? 1 digits with
    | none => s
    | some (_, more) => more.dropWhile isDigit

def timeOfDay? (s : Text) : Option Text := do
  let (_, s) ← twoDigits? 0 23 s
  let (_, s) ← (mark? ':' s).bind (twoDigits? 0 59)
  let (_, s) ← (mark? ':' s).bind (twoDigits? 0 59)
  some (skipFraction s)

def offset? (s : Text) : Option Text := do
  let s ← (mark? '+' s).or (mark? '-' s)
  let (_, s) ← twoDigits? 0 23 s
  let (_, s) ← (mark? ':' s).bind (twoDigits? 0 59)
  some s

/-- the text behind the distance from universal time, if one stands here -/
def skipOffset (s : Text) : Text :=
  (((mark? 'Z' s).or (mark? 'z' s)).or (offset? s)).getD s

def timeBehindDate? (s : Text) : Option Text := do
  let s ← ((mark? 'T' s).or (mark? 't' s)).or (mark? ' ' s)
  let s ← timeOfDay? s
  some (skipOffset s)

/-- a date or a time, and the text behind it; none when neither stands here -/
def moment? (s : Text) : Option (Except Fault Value × Text) :=
  match calendarDate? s with
  | some (date, rest) =>
    if inCalendar date then
      match timeBehindDate? rest with
      | some behind => some (.ok (.moment .dateTime), behind)
      | none => some (.ok (.moment .date), rest)
    else some (.error .malformed, rest)
  | none => (timeOfDay? s).map fun rest => (.ok (.moment .time), rest)

end Rulebook.Toml
