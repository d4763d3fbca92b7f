/-
Decimal numerals. A numeral is a signed whole number times a power of ten; its double is the
nearest one. Exponents far out of range are answered without writing out the power.
-/
import JsonTemplate.Binary64.Basic

namespace JsonTemplate

/-- The number `± digits * 10 ^ exponent`. -/
structure Decimal where
  negative : Bool
  digits : Nat
  exponent : Int
  deriving DecidableEq

namespace Decimal

/-- Digit characters as a number, leading digit first. -/
def natOfDigits (digits : List Char) : Nat :=
  digits.foldl (fun n c => 10 * n + (c.toNat - '0'.toNat)) 0

/-- The numeral `whole.fraction` times a power of ten. -/
def ofParts (negative : Bool) (whole fraction : List Char) (exponent : Int) : Decimal where
  negative := negative
  digits := natOfDigits (whole ++ fraction)
  exponent := exponent - fraction.length

/-- Above 10^400 all is infinite; below `2 ^ -1076` all is zero, and `10 < 2 ^ 4`, `2 ^ 3 < 10`. -/
def toBinary64 (d : Decimal) : Binary64 :=
  if d.digits = 0 then .ofUnits d.negative 0
  else if 400 < d.exponent then .infinite d.negative
  else if 3 * d.exponent + d.digits.log2 + 1076 ≤ 0 then .ofUnits d.negative 0
  else if 0 ≤ d.exponent then
    .round d.negative (d.digits * Nat.pow 10 d.exponent.toNat * Binary64.one) 1
  else .round d.negative (d.digits * Binary64.one) (Nat.pow 10 (-d.exponent).toNat)

/-! ## Reading -/

/-- The digits after a point, none if there is no point. -/
def scanFraction : List Char → List Char
  | '.' :: rest => rest.takeWhile Char.isDigit
  | _ => []

/-- The number of characters of a fraction with its point. -/
def fractionLength (digits : List Char) : Nat := if digits.isEmpty then 0 else digits.length + 1

/-- The sign at the start of a text, true for a minus, with its number of characters. -/
def scanSign : List Char → Bool × Nat
  | '-' :: _ => (true, 1)
  | '+' :: _ => (false, 1)
  | _ => (false, 0)

/-- An exponent with its number of characters, 0 unless one stands there complete. -/
def scanExponent : List Char → Int × Nat
  | e :: rest =>
    if e = 'e' ∨ e = 'E' then
      let (negative, signLength) := scanSign rest
      let digits := (rest.drop signLength).takeWhile Char.isDigit
      if digits.isEmpty then (0, 0)
      else
        let size : Int := natOfDigits digits
        (if negative then -size else size, 1 + signLength + digits.length)
    else (0, 0)
  | [] => (0, 0)

/-- The longest unsigned numeral at the start of a text, and its number of characters. -/
def scan (text : List Char) : Decimal × Nat :=
  let whole := text.takeWhile Char.isDigit
  let afterWhole := text.drop whole.length
  let fraction := scanFraction afterWhole
  let (exponent, length) := scanExponent (afterWhole.drop (fractionLength fraction))
  (ofParts false whole fraction exponent, whole.length + fractionLength fraction + length)

end Decimal

end JsonTemplate
