/-
The compact text of a document: no white space, and in strings only quotes, backslashes and
control characters are escaped. A `Writer` puts a text, or a document, together from its parts; an
object is told the number of its entries before it is given them.
-/
import JsonTemplate.Document.Basic
import JsonTemplate.Binary64.Layout
import JsonTemplate.Text.Hex

namespace JsonTemplate.Document

/-- The text of one character between quotes. -/
def escape (c : Char) : List Char :=
  match c with
  | '"' => ['\\', '"']
  | '\\' => ['\\', '\\']
  | '\x08' => ['\\', 'b']
  | '\x0c' => ['\\', 'f']
  | '\n' => ['\\', 'n']
  | '\r' => ['\\', 'r']
  | '\t' => ['\\', 't']
  | c =>
    if c.toNat < 32 then
      ['\\', 'u', '0', '0', Text.hexDigit (c.toNat / 16), Text.hexDigit (c.toNat % 16)]
    else [c]

def quote (text : String) : String :=
  String.ofList ('"' :: text.toList.flatMap escape ++ ['"'])

def Number.text : Number → String
  | .integer n => toString n
  | .double x => if x.isFinite then Binary64.Layout.json.text x else "null"

def arrayText (items : List String) : String := "[" ++ ",".intercalate items ++ "]"

/-- The text of an object that announces a number of entries. One that announces none is closed at
once; the entries that it has nevertheless come after that, with a comma before each. -/
def objectText (announced : Nat) (entries : List (String × String)) : String :=
  let listed := ",".intercalate (entries.map fun (key, text) => quote key ++ ":" ++ text)
  if announced = 0 ∧ entries.isEmpty = false then "\x7b\x7d," ++ listed ++ "\x7d"
  else "\x7b" ++ listed ++ "\x7d"

mutual

def text : Document → String
  | null => "null"
  | bool b => if b then "true" else "false"
  | number n => n.text
  | string s => quote s
  | array items => arrayText (itemTexts items)
  | object entries => objectText entries.length (entryTexts entries)

def itemTexts : List Document → List String
  | [] => []
  | d :: rest => d.text :: itemTexts rest

def entryTexts : List (String × Document) → List (String × String)
  | [] => []
  | (key, d) :: rest => (key, d.text) :: entryTexts rest

end

/-! ## Writers -/

/-- How a document is put together from its parts, be it as a document or as its text. -/
structure Writer (α : Type) where
  /-- What is no container. -/
  leaf : Document → α
  array : List α → α
  object : (announced : Nat) → List (String × α) → α

namespace Writer

/-- The document itself; nothing of it is written before its parts. -/
def document : Writer Document := ⟨id, .array, fun _ => .object⟩

def text : Writer String := ⟨Document.text, arrayText, objectText⟩

end Writer

end JsonTemplate.Document
