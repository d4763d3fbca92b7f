/-
Numerals in strings, as the conversions read them: whole numbers of 64 bits and doubles.
-/
import JsonTemplate.Binary64.Decimal

namespace JsonTemplate

/-- Why a text is not a numeral. -/
inductive NumeralFault
  | emptyInteger
  | invalidDigit
  | tooLarge
  | tooSmall
  | emptyNumber
  | invalidNumber
  deriving DecidableEq, Repr

namespace NumeralFault

def message : NumeralFault → String
  | emptyInteger => "cannot parse integer from empty string"
  | invalidDigit => "invalid digit found in string"
  | tooLarge => "number too large to fit in target type"
  | tooSmall => "number too small to fit in target type"
  | emptyNumber => "cannot parse float from empty string"
  | invalidNumber => "invalid float literal"

end NumeralFault

namespace Numeral

/-- Takes one more digit into a magnitude that may not pass `limit`. -/
def step (limit : Nat) (fault : NumeralFault) (n : Nat) (c : Char) : Except NumeralFault Nat :=
  if c.isDigit then
    let next := 10 * n + (c.toNat - '0'.toNat)
    if next ≤ limit then .ok next else .error fault
  else .error .invalidDigit

/-- Digits after the sign, at least one; the first fault from the left is reported. -/
def magnitude (limit : Nat) (fault : NumeralFault) (digits : List Char) :
    Except NumeralFault Nat :=
  if digits.isEmpty then .error .invalidDigit else digits.foldlM (step limit fault) 0

/-- An optional sign and digits, between -2^63 and 2^63 - 1. -/
def integer : List Char → Except NumeralFault Int
  | [] => .error .emptyInteger
  | '-' :: digits => do return -(Int.ofNat (← magnitude (Nat.pow 2 63) .tooSmall digits))
  | '+' :: digits => do return Int.ofNat (← magnitude (Nat.pow 2 63 - 1) .tooLarge digits)
  | digits => do return Int.ofNat (← magnitude (Nat.pow 2 63 - 1) .tooLarge digits)

/-- The exponent at the end of a numeral: nothing, or a mark, an optional sign and digits. -/
def exponent? (text : List Char) : Option Int :=
  let (n, length) := Decimal.scanExponent text
  if length = text.length then some n else none

/-- Digits with an optional point, on one side of it at least one, and an optional exponent. -/
def decimal? (negative : Bool) (text : List Char) : Option Decimal := do
  let whole := text.takeWhile Char.isDigit
  let rest := text.dropWhile Char.isDigit
  let (fraction, rest) := match rest with
    | '.' :: rest => (rest.takeWhile Char.isDigit, rest.dropWhile Char.isDigit)
    | _ => ([], rest)
  if whole.isEmpty ∧ fraction.isEmpty then none
  else return Decimal.ofParts negative whole fraction (← exponent? rest)

/-- A number without its sign: a name in any case of letters, or a decimal. -/
def unsigned? (negative : Bool) (text : List Char) : Option Binary64 :=
  let word := String.ofList (text.map Char.toLower)
  if word = "inf" ∨ word = "infinity" then some (.infinite negative)
  else if word = "nan" then some .nan
  else (decimal? negative text).map Decimal.toBinary64

/-- An optional sign and a number. -/
def number (text : List Char) : Except NumeralFault Binary64 :=
  let value := match text with
    | '-' :: rest => unsigned? true rest
    | '+' :: rest => unsigned? false rest
    | _ => unsigned? false text
  match value with
  | some n => .ok n
  | none => .error (if text.isEmpty then .emptyNumber else .invalidNumber)

end Numeral

end JsonTemplate
