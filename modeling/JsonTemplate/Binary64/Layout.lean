/-
Number texts. Two layouts of the shortest digits: `json`, with an exponent outside a window,
and `plain`, always positional. `display` is the text of a number as a value or a map key:
a whole number inside the 64-bit range is written exactly.
-/
import JsonTemplate.Binary64.Shortest

namespace JsonTemplate.Binary64

/-- How a finite double that has been turned into digits is laid out. -/
structure Layout where
  /-- Leading exponents written without an exponent part; `none` for all. -/
  window : Option (Int × Int)
  /-- What follows a number without a fraction. -/
  wholeEnding : String
  tie : Tie

/-- Sixteen places before the point and five zeros after it at most; whole numbers end in `.0`. -/
def Layout.json : Layout := ⟨some (-5, 15), ".0", .even⟩

/-- Never an exponent and never an empty fraction. -/
def Layout.plain : Layout := ⟨none, "", .up⟩

def zeros (count : Nat) : String := String.ofList (List.replicate count '0')

/-- Digits with the point where the exponent puts it. -/
def positional (d : Digits) (wholeEnding : String) : String :=
  let text := toString d.digits
  let before : Int := text.length + d.exponent
  if before ≤ 0 then "0." ++ zeros (-before).toNat ++ text
  else if 0 ≤ d.exponent then text ++ zeros d.exponent.toNat ++ wholeEnding
  else
    let chars := text.toList
    String.ofList (chars.take before.toNat) ++ "." ++ String.ofList (chars.drop before.toNat)

/-- One digit before the point and a signed exponent. -/
def scientific (d : Digits) : String :=
  let chars := (toString d.digits).toList
  let exponent : Int := d.exponent + chars.length - 1
  String.ofList (chars.take 1)
    ++ (if chars.length = 1 then "" else "." ++ String.ofList (chars.drop 1))
    ++ (if exponent < 0 then "e-" else "e+") ++ toString exponent.natAbs

def Layout.magnitude (layout : Layout) (units : Nat) : String :=
  let d := if units = 0 then ⟨0, 0⟩ else shortestDigits layout.tie units
  match layout.window with
  | none => positional d layout.wholeEnding
  | some (least, greatest) =>
    let exponent : Int := d.exponent + (toString d.digits).length - 1
    if least ≤ exponent ∧ exponent ≤ greatest then positional d layout.wholeEnding
    else scientific d

def Layout.text (layout : Layout) : Binary64 → String
  | .nan => "NaN"
  | .infinite negative => if negative then "-inf" else "inf"
  | .finite negative units _ => (if negative then "-" else "") ++ layout.magnitude units

/-- Shortest digits, never with an exponent. -/
def plain (x : Binary64) : String := Layout.plain.text x

/-- A whole number below 2^63 in magnitude exactly, so zero has no sign; any other as `plain`. -/
def display (x : Binary64) : String :=
  match x.toInt? with
  | some n => if n.natAbs < Nat.pow 2 63 then toString n else x.plain
  | none => x.plain

end JsonTemplate.Binary64
