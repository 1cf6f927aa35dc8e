/-
Decimal numbers. A decimal is a sign, digits, and the power of ten behind them; what is infinite or no number at all is
`endless`. Decimals are held in binary with 53 significant bits, so the number meant is the nearest of that form, a tie
going to the even neighbour; from two to the power 1024 on they are endless. `Decimal.whole?` is that number when it is
whole.
-/

namespace Rulebook

inductive Decimal where
  | finite (negative : Bool) (digits : Nat) (exponent : Int)
  | endless
  deriving DecidableEq, Repr

namespace Decimal

/-- a quotient rounded to the nearest whole number, a tie to the even one -/
def roundQuotient (numerator denominator : Nat) : Nat :=
  let q := numerator / denominator
  let r := numerator % denominator
  if 2 * r < denominator then q
  else if denominator < 2 * r then q + 1
  else q + q % 2

/-- the power of two of the last significant bit of a quotient -/
def lastBit (numerator denominator : Nat) : Int :=
  let e : Int := (numerator.log2 : Int) - denominator.log2 - 53
  let e := if denominator <<< (e.toNat + 53) ≤ numerator <<< (-e).toNat then e + 1 else e
  max e (-1074)

/-- the number nearest to a quotient, if it is whole -/
def nearestWhole? (numerator denominator : Nat) : Option Nat :=
  let e := lastBit numerator denominator
  let m := roundQuotient (numerator <<< (-e).toNat) (denominator <<< e.toNat) <<< e.toNat
  let whole := m >>> (-e).toNat
  if whole <<< (-e).toNat = m then some whole else none

/-- numbers from here on are endless -/
def ceiling : Nat := 1 <<< 1024

/-- beyond this power of ten a number is endless, and so far below its digits it is nothing -/
def reach : Nat := 400

/-- the number meant, if it is whole -/
def whole? : Decimal → Option Int
  | endless => none
  | finite negative digits exponent =>
    if digits = 0 then some 0
    else if (reach : Int) < exponent then none
    else if exponent + (Nat.toDigits 10 digits).length < -reach then some 0
    else
      match nearestWhole? (digits * Nat.pow 10 exponent.toNat) (Nat.pow 10 (-exponent).toNat) with
      | none => none
      | some n => if n < ceiling then some (if negative then -(n : Int) else n) else none

end Decimal

end Rulebook
