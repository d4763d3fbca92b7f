/-
JSON documents. Objects keep their entries in order. A number is a whole number of 64 bits or a
double; `toBinary64` is its value.
-/
import JsonTemplate.Entries
import JsonTemplate.Binary64.Basic

namespace JsonTemplate

inductive Document.Number
  | integer (value : Int)
  | double (value : Binary64)
  deriving DecidableEq

def Document.Number.toBinary64 : Document.Number → Binary64
  | .integer n => .ofInt n
  | .double x => x

inductive Document
  | null
  | bool (value : Bool)
  | number (value : Document.Number)
  | string (value : String)
  | array (items : List Document)
  | object (entries : List (String × Document))
  deriving Inhabited

namespace Document

/-- The kind of a document, as messages name it. -/
def kind : Document → String
  | null => "null"
  | bool _ => "bool"
  | number _ => "number"
  | string _ => "string"
  | array _ => "array"
  | object _ => "object"

mutual

/-- Every key once, at its first place with its last value, at every depth. -/
def distinct : Document → Document
  | array items => array (distinctItems items)
  | object entries => object (Entries.ofPairs (distinctEntries entries))
  | d => d

def distinctItems : List Document → List Document
  | [] => []
  | d :: rest => d.distinct :: distinctItems rest

def distinctEntries : List (String × Document) → List (String × Document)
  | [] => []
  | (key, d) :: rest => (key, d.distinct) :: distinctEntries rest

end

end Document

end JsonTemplate
