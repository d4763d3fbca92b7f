/-
Escapes in quoted strings. A backslash with a letter of its own stands for one character, one
with a hexadecimal number for the character of that number, and any other is kept as written.
-/
import JsonTemplate.Text.Hex

namespace JsonTemplate.Escape

/-- The character of a one-letter escape. -/
def letter? : Char → Option Char
  | 'n' => some '\n'
  | 't' => some '\t'
  | 'r' => some '\r'
  | '"' => some '"'
  | '\'' => some '\''
  | '\\' => some '\\'
  | _ => none

/-- At least one hexadecimal digit, after an optional plus sign. -/
def number? (text : List Char) : Option Nat :=
  let digits := match text with
    | '+' :: digits => digits
    | digits => digits
  if digits.isEmpty then none else Text.hexNumber? digits

/-- The character with a number, unless it is a surrogate or out of range. -/
def charOf? (n : Nat) : Option Char := if n.isValidChar then some (Char.ofNat n) else none

/-- The characters after `\u`, at most four: the character they name, or else all as written. -/
def numbered (digits : List Char) : List Char :=
  match (number? digits).bind charOf? with
  | some c => [c]
  | none => '\\' :: 'u' :: digits

/-- The text a string body stands for. -/
def decode : List Char → List Char
  | [] => []
  | '\\' :: 'u' :: a :: b :: c :: d :: rest => numbered [a, b, c, d] ++ decode rest
  | '\\' :: 'u' :: digits => numbered digits
  | '\\' :: c :: rest =>
    match letter? c with
    | some decoded => decoded :: decode rest
    | none => '\\' :: c :: decode rest
  | c :: rest => c :: decode rest

end JsonTemplate.Escape
