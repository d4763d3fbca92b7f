/-
Byte offsets and lines in a text. Offsets count UTF-8 bytes, columns count characters, and a
piece of a text is only cut out between characters (`slice?`).
-/
import JsonTemplate.Span

namespace JsonTemplate.Text

/-- The UTF-8 length of a list of characters. -/
def byteLength : List Char → Nat
  | [] => 0
  | c :: rest => c.utf8Size + byteLength rest

/-- The text after `count` bytes, if a character ends there. -/
def dropBytes? : (count : Nat) → List Char → Option (List Char)
  | 0, text => some text
  | _ + 1, [] => none
  | count@(_ + 1), c :: rest =>
    if c.utf8Size ≤ count then dropBytes? (count - c.utf8Size) rest else none

/-- The first `count` bytes, if a character ends there. -/
def takeBytes? : (count : Nat) → List Char → Option (List Char)
  | 0, _ => some []
  | _ + 1, [] => none
  | count@(_ + 1), c :: rest =>
    if c.utf8Size ≤ count then (takeBytes? (count - c.utf8Size) rest).map (c :: ·) else none

/-- The text of a span, unless it is reversed, too long or cuts a character. -/
def slice? (source : String) (span : Span) : Option String :=
  if span.start ≤ span.stop then
    ((dropBytes? span.start source.toList).bind (takeBytes? span.length)).map String.ofList
  else none

/-- A line and a column, both counted from 1. -/
structure Position where
  line : Nat
  column : Nat
  deriving DecidableEq, Repr

/-- Moves over the characters that start before `bytes` more bytes. -/
def Position.advance (p : Position) : (bytes : Nat) → List Char → Position
  | 0, _ => p
  | _ + 1, [] => p
  | bytes@(_ + 1), c :: rest =>
    advance (if c = '\n' then ⟨p.line + 1, 1⟩ else ⟨p.line, p.column + 1⟩)
      (bytes - c.utf8Size) rest

/-- Where the character at a byte offset stands. -/
def position (source : String) (offset : Nat) : Position :=
  Position.advance ⟨1, 1⟩ offset source.toList

/-- The lines without their endings, a line feed or a return with a line feed. `line` holds
the characters of the current line in reverse. -/
def linesFrom (line : List Char) : List Char → List (List Char)
  | [] => if line.isEmpty then [] else [line.reverse]
  | '\n' :: rest =>
    (match line with
      | '\r' :: before => before.reverse
      | _ => line.reverse) :: linesFrom [] rest
  | c :: rest => linesFrom (c :: line) rest

def lines (source : String) : List String := (linesFrom [] source.toList).map String.ofList

/-- A line by its number, empty if there is none. -/
def line (source : String) (number : Nat) : String := ((lines source)[number - 1]?).getD ""

end JsonTemplate.Text
