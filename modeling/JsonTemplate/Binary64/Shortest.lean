/-
Shortest digits. Of the decimals that read back as the same double, those with the fewest
digits are kept, and of these the nearest. The search walks the decimal grids of 1 to 17
digits; on each only the two neighbours of the double can be the answer.
-/
import JsonTemplate.Binary64.Basic

namespace JsonTemplate.Binary64

/-- Which of two equally near decimals is taken. -/
inductive Tie
  | even
  | up
  deriving DecidableEq

/-- The number `digits * 10 ^ exponent`. -/
structure Digits where
  digits : Nat
  exponent : Int
  deriving DecidableEq

/-- How often `units` must be multiplied by ten to reach 1, at most `bound`. -/
def placesBelowOne (units : Nat) : (bound : Nat) → Nat
  | 0 => 0
  | bound + 1 => if one ≤ units then 0 else placesBelowOne (units * 10) bound + 1

/-- The exponent of ten of the leading digit. -/
def leadingExponent (units : Nat) : Int :=
  if one ≤ units then ((toString (units / one)).length : Int) - 1
  else -(placesBelowOne units 400 : Int)

/-- The distance to the next double above. -/
def gapAbove (units : Nat) : Nat := Nat.pow 2 (units.log2 - 52)

/-- The distance to the next double below, half as wide just above a power of two. -/
def gapBelow (units : Nat) : Nat :=
  if 53 ≤ units.log2 ∧ units = Nat.pow 2 units.log2 then gapAbove units / 2 else gapAbove units

/-- Whether a decimal `distance` away, both in the scale of `gap`, reads back. -/
def readsBack (units : Nat) (distance gap : Nat) : Bool :=
  if units / gapAbove units % 2 = 0 then 2 * distance ≤ gap else 2 * distance < gap

/-- The neighbour on the grid `10 ^ -places` that reads back, the nearer one if both do. -/
def nearestOnGrid? (tie : Tie) (units : Nat) (places : Int) : Option Digits :=
  let scale := Nat.pow 10 places.toNat
  let step := one * Nat.pow 10 (-places).toNat
  let lower := units * scale / step
  let rest := units * scale % step
  let down := readsBack units rest (gapBelow units * scale)
  let up := readsBack units (step - rest) (gapAbove units * scale)
  let takeUp :=
    if down && up then
      if 2 * rest = step then (match tie with | .even => lower % 2 == 1 | .up => true)
      else decide (step < 2 * rest)
    else up
  if down || up then some ⟨if takeUp then lower + 1 else lower, -places⟩ else none

/-- Moves zeros at the end into the exponent. -/
def Digits.trim (d : Digits) : (bound : Nat) → Digits
  | 0 => d
  | bound + 1 =>
    if d.digits % 10 = 0 then Digits.trim ⟨d.digits / 10, d.exponent + 1⟩ bound else d

/-- The shortest digits of a positive magnitude. -/
def shortestDigits (tie : Tie) (units : Nat) : Digits :=
  let leading := leadingExponent units
  let found := (List.range 17).findSome? fun (count : Nat) =>
    nearestOnGrid? tie units ((count : Int) - leading)
  (found.getD ⟨units / one, 0⟩).trim 17

end JsonTemplate.Binary64
