/-
Tokens of an expression. A text is cut into words, numerals, quoted strings and single marks;
white space between them is dropped and the last token is the end of the text. Operators of two
marks are put together by the reader, which sees from the spans whether the marks touch.
-/
import JsonTemplate.Text.Position
import JsonTemplate.Binary64.Decimal

namespace JsonTemplate

/-- What a token is. The body of a string stands without its quotes, escapes not yet read. -/
inductive Token.Form
  | word (name : String)
  | number (value : Binary64)
  | string (body : List Char)
  | mark (char : Char)
  | finish
  deriving DecidableEq

structure Token where
  form : Token.Form
  span : Span
  deriving DecidableEq

namespace Token

/-! ## Character classes -/

/-- The white space that may stand between tokens. -/
def isGap (c : Char) : Bool := c == ' ' || c == '\t' || c == '\r' || c == '\n'

def isWordStart (c : Char) : Bool := c.isAlpha || c == '_'

def isWordChar (c : Char) : Bool := c.isAlphanum || c == '_'

def isQuote (c : Char) : Bool := c == '\'' || c == '"'

/-! ## Single tokens -/

/-- The characters up to the closing quote; a backslash takes the next character with it. -/
def quoted? (quote : Char) : List Char → Option (List Char)
  | [] => none
  | '\\' :: c :: rest => (quoted? quote rest).map ('\\' :: c :: ·)
  | c :: rest => if c = quote then some [] else (quoted? quote rest).map (c :: ·)

/-- The token at the start of a text that is not white space, and its number of characters. An
unclosed quote is a mark. -/
def next (c : Char) (rest : List Char) : Form × Nat :=
  if isWordStart c then
    let word := c :: rest.takeWhile isWordChar
    (.word (String.ofList word), word.length)
  else if c.isDigit then
    let (value, length) := Decimal.scan (c :: rest)
    (.number value.toBinary64, length)
  else if isQuote c then
    match quoted? c rest with
    | some body => (.string body, body.length + 2)
    | none => (.mark c, 1)
  else (.mark c, 1)

/-! ## The whole text -/

/-- The tokens of a text that starts at `offset`; `skip` characters belong to a token that has
been read. -/
def scan (skip offset : Nat) : List Char → List Token
  | [] => [⟨.finish, ⟨offset, offset + 1⟩⟩]
  | c :: rest =>
    let after := offset + c.utf8Size
    match skip with
    | skip + 1 => scan skip after rest
    | 0 =>
      if isGap c then scan 0 after rest
      else
        let (form, length) := next c rest
        let stop := offset + Text.byteLength ((c :: rest).take length)
        ⟨form, ⟨offset, stop⟩⟩ :: scan (length - 1) after rest

/-- The tokens of a source text, the last of them `finish`. -/
def ofSource (source : String) : List Token := scan 0 0 source.toList

/-! ## Reading -/

def isMark (token : Token) (c : Char) : Bool := token.form == .mark c

/-- Whether no white space stands between two tokens. -/
def touches (first second : Token) : Bool := first.span.stop == second.span.start

end Token

end JsonTemplate
