/-
Numbers in JSON texts. Digits are taken in as long as they make a number of 64 bits, and the digits
after that count for their place only. The double of the number is then multiplied by a power of ten
or divided by powers of ten, so it is not always the nearest one to the numeral, and a numeral may
be too large though there is a double near to it.
-/
import JsonTemplate.Document.Basic
import JsonTemplate.Binary64.Decimal

namespace JsonTemplate.Document.Numeral

/-- The number that digits make after those of `n`, and how many of them are taken in: all before
the first with which the number would need more than 64 bits. -/
def takeIn (n : Nat) : List Char → Nat × Nat
  | [] => (n, 0)
  | c :: rest =>
    let next := 10 * n + (c.toNat - '0'.toNat)
    if next < Nat.pow 2 64 then
      let (whole, taken) := takeIn next rest
      (whole, taken + 1)
    else (n, 0)

/-- The greatest power of ten that is a double. -/
def maxPower : Nat := 308

/-- A power of ten as a double. -/
def power (exponent : Nat) : Binary64 := .ofNat (Nat.pow 10 exponent)

/-- Divides so many times by the greatest power of ten, until nothing is left. -/
def lower (x : Binary64) : (times : Nat) → Binary64
  | 0 => x
  | times + 1 => if x.isZero then x else lower (x.div (power maxPower)) times

/-- A finite double times a power of ten, nothing if that is too large. -/
def scale (x : Binary64) (exponent : Int) : Option Binary64 :=
  let size := exponent.natAbs
  if exponent < 0 then
    let times := (size - 1) / maxPower
    some ((lower x times).div (power (size - maxPower * times)))
  else if x.isZero then some x
  else if size ≤ maxPower then some (x.mul (power size)) |>.filter Binary64.isFinite
  else none

/-- The double of a numeral without a sign, by its digits around the point and its exponent. -/
def double? (whole fraction : List Char) (exponent : Int) : Option Binary64 :=
  let (n, taken) := takeIn 0 whole
  let (n, further) := takeIn n fraction
  scale (.ofNat n) (exponent + (whole.length - taken : Nat) - further)

/-- The double of the longest numeral without a sign at the start of a text. -/
def read? (text : List Char) : Option Binary64 :=
  let whole := text.takeWhile Char.isDigit
  let afterWhole := text.drop whole.length
  let fraction := Decimal.scanFraction afterWhole
  double? whole fraction
    (Decimal.scanExponent (afterWhole.drop (Decimal.fractionLength fraction))).1

end JsonTemplate.Document.Numeral
