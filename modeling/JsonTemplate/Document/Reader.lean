/-
The reader of JSON texts. The text is cut into tokens, then a stack of open containers takes one
token at a time. It is strict: no leading zeros or signs, no control characters in strings, no
half of a surrogate pair, no number out of range, and a bound on the depth of containers. A key
given twice keeps its first place and takes its last value.
-/
import JsonTemplate.Document.Numeral
import JsonTemplate.Text.Hex

namespace JsonTemplate.Document

namespace Reading

/-! ## Tokens -/

inductive Token
  | openArray | closeArray | openObject | closeObject | comma | colon
  | string (text : String)
  | scalar (value : Document)

/-- A UTF-16 unit from four hexadecimal digits. -/
def unit? (a b c d : Char) : Option Nat := Text.hexNumber? [a, b, c, d]

def letter? : Char → Option Char
  | '"' => some '"'
  | '\\' => some '\\'
  | '/' => some '/'
  | 'b' => some '\x08'
  | 'f' => some '\x0c'
  | 'n' => some '\n'
  | 'r' => some '\r'
  | 't' => some '\t'
  | _ => none

/-- Puts a character in front of the rest of a string and counts the characters it took. -/
def push (c : Char) (taken : Nat) (rest : Option (List Char × Nat)) : Option (List Char × Nat) :=
  rest.map fun (chars, length) => (c :: chars, length + taken)

/-- A string after its opening quote: its text and its length with the closing quote. -/
def string? : List Char → Option (List Char × Nat)
  | [] => none
  | '"' :: _ => some ([], 1)
  | '\\' :: 'u' :: a :: b :: c :: d :: rest =>
    match unit? a b c d with
    | none => none
    | some unit =>
      if 0xd800 ≤ unit ∧ unit < 0xdc00 then
        match rest with
        | '\\' :: 'u' :: e :: f :: g :: h :: rest =>
          match unit? e f g h with
          | none => none
          | some low =>
            if 0xdc00 ≤ low ∧ low < 0xe000 then
              push (Char.ofNat (0x10000 + (unit - 0xd800) * 1024 + (low - 0xdc00))) 12
                (string? rest)
            else none
        | _ => none
      else if 0xdc00 ≤ unit ∧ unit < 0xe000 then none
      else push (Char.ofNat unit) 6 (string? rest)
  | '\\' :: c :: rest =>
    match letter? c with
    | some decoded => push decoded 2 (string? rest)
    | none => none
  | c :: rest => if c.toNat < 32 ∨ c = '\\' then none else push c 1 (string? rest)

/-- A number at the start of a text, with its length. A whole number of 64 bits stays one, but
for a negative zero. -/
def number? (text : List Char) : Option (Number × Nat) :=
  let (negative, unsigned) : Bool × List Char := match text with
    | '-' :: rest => (true, rest)
    | _ => (false, text)
  let whole := unsigned.takeWhile Char.isDigit
  if whole.isEmpty ∨ (1 < whole.length ∧ whole.head? = some '0') then none
  else
    let (_, length) := Decimal.scan unsigned
    let taken := if negative then length + 1 else length
    let n := Decimal.natOfDigits whole
    if length = whole.length ∧ n < Nat.pow 2 64 ∧ ¬ negative then some (.integer n, taken)
    else if length = whole.length ∧ 0 < n ∧ n ≤ Nat.pow 2 63 ∧ negative then
      some (.integer (-(n : Int)), taken)
    else (Numeral.read? unsigned).map fun value =>
      (.double (if negative then value.neg else value), taken)

/-- The token at the start of a text, and its length. -/
def next? (c : Char) (rest : List Char) : Option (Token × Nat) :=
  match c with
  | '[' => some (.openArray, 1)
  | ']' => some (.closeArray, 1)
  | '\x7b' => some (.openObject, 1)
  | '\x7d' => some (.closeObject, 1)
  | ',' => some (.comma, 1)
  | ':' => some (.colon, 1)
  | '"' => (string? rest).map fun (chars, length) => (.string (String.ofList chars), length + 1)
  | 'n' => if "ull".toList.isPrefixOf rest then some (.scalar .null, 4) else none
  | 't' => if "rue".toList.isPrefixOf rest then some (.scalar (.bool true), 4) else none
  | 'f' => if "alse".toList.isPrefixOf rest then some (.scalar (.bool false), 5) else none
  | c => (number? (c :: rest)).map fun (n, length) => (.scalar (.number n), length)

/-- The tokens of a text; `skip` characters belong to a token that has been read. -/
def tokens? (skip : Nat) : List Char → Option (List Token)
  | [] => some []
  | c :: rest =>
    match skip with
    | skip + 1 => tokens? skip rest
    | 0 =>
      if c = ' ' ∨ c = '\t' ∨ c = '\n' ∨ c = '\r' then tokens? 0 rest
      else
        match next? c rest with
        | none => none
        | some (token, length) => (tokens? (length - 1) rest).map (token :: ·)

/-! ## Containers -/

/-- An open container with what it holds so far, last first; an object with the key of the
value to come. -/
inductive Frame
  | array (done : List Document)
  | object (done : List (String × Document)) (key : String)

/-- What may stand next. -/
inductive Want
  | value
  | firstItem
  | firstKey
  | key
  | colon
  | comma
  | nothing (document : Document)

structure State where
  stack : List Frame
  want : Want

/-- A value has been read. -/
def put (d : Document) : List Frame → State
  | [] => ⟨[], .nothing d⟩
  | .array done :: outer => ⟨.array (d :: done) :: outer, .comma⟩
  | .object done key :: outer => ⟨.object ((key, d) :: done) key :: outer, .comma⟩

def close (array : Bool) : List Frame → Option State
  | .array done :: outer => if array then some (put (.array done.reverse) outer) else none
  | .object done _ :: outer =>
    if array then none else some (put (.object (Entries.ofPairs done.reverse)) outer)
  | [] => none

/-- The start of a value. -/
def start (depth : Nat) (stack : List Frame) : Token → Option State
  | .scalar d => some (put d stack)
  | .string s => some (put (.string s) stack)
  | .openArray =>
    if stack.length < depth then some ⟨.array [] :: stack, .firstItem⟩ else none
  | .openObject =>
    if stack.length < depth then some ⟨.object [] "" :: stack, .firstKey⟩ else none
  | _ => none

def setKey (key : String) : List Frame → Option State
  | .object done _ :: outer => some ⟨.object done key :: outer, .colon⟩
  | _ => none

def step (depth : Nat) (s : State) (token : Token) : Option State :=
  match s.want, token with
  | .value, token => start depth s.stack token
  | .firstItem, .closeArray => close true s.stack
  | .firstItem, token => start depth s.stack token
  | .firstKey, .closeObject => close false s.stack
  | .firstKey, .string key => setKey key s.stack
  | .key, .string key => setKey key s.stack
  | .colon, .colon => some ⟨s.stack, .value⟩
  | .comma, .closeArray => close true s.stack
  | .comma, .closeObject => close false s.stack
  | .comma, .comma =>
    match s.stack with
    | .array _ :: _ => some ⟨s.stack, .value⟩
    | .object .. :: _ => some ⟨s.stack, .key⟩
    | [] => none
  | _, _ => none

end Reading

/-- The document of a text whose containers nest at most `depth` deep. -/
def readWithin? (depth : Nat) (text : String) : Option Document := do
  let tokens ← Reading.tokens? 0 text.toList
  match ← tokens.foldlM (Reading.step depth) ⟨[], .value⟩ with
  | ⟨[], .nothing d⟩ => some d
  | _ => none

/-- The greatest depth of a document that is read. -/
def maxDepth : Nat := 127

def read? (text : String) : Option Document := readWithin? maxDepth text

end JsonTemplate.Document
