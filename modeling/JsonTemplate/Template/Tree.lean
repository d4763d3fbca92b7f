/-
Template trees. A tree is a document whose strings have become programs. `ofDocument` compiles
the strings in document order and stops at the first that is not an expression, with its place
in the document as a JSON pointer.
-/
import JsonTemplate.Program
import JsonTemplate.Document.Reader
import JsonTemplate.Template.Fault

namespace JsonTemplate

/-- A constant of a template, copied to the output. -/
inductive Scalar
  | null
  | bool (value : Bool)
  | number (value : Binary64)
  deriving DecidableEq

def Scalar.toValue : Scalar → Value
  | null => .null
  | bool b => .bool b
  | number n => .number n

inductive Tree
  | literal (value : Scalar)
  | expression (program : Program)
  | object (entries : List (String × Tree))
  | list (items : List Tree)

namespace Tree

def kind : Tree → String
  | literal _ => "literal"
  | expression _ => "expression"
  | object _ => "object"
  | list _ => "list"

mutual

/-- The number of expressions in a tree. -/
def expressionCount : Tree → Nat
  | literal _ => 0
  | expression _ => 1
  | object entries => countEntries entries
  | list items => countItems items

def countEntries : List (String × Tree) → Nat
  | [] => 0
  | (_, t) :: rest => t.expressionCount + countEntries rest

def countItems : List Tree → Nat
  | [] => 0
  | t :: rest => t.expressionCount + countItems rest

end

/-! ## Compiling -/

/-- A key as a step of a JSON pointer. -/
def escapeStep (key : String) : String :=
  String.ofList (key.toList.flatMap fun c =>
    if c = '~' then ['~', '0'] else if c = '/' then ['~', '1'] else [c])

/-- A path with one more step. -/
def extend (path step : String) : String := path ++ "/" ++ step

section OfDocument

variable (env : Environment)

mutual

def ofDocument (path : String) : Document → Except TemplateFault Tree
  | .null => .ok (literal .null)
  | .bool b => .ok (literal (.bool b))
  | .number n => .ok (literal (.number n.toBinary64))
  | .string source =>
    match env.compile source with
    | .ok program => .ok (expression program)
    | .error faults => .error (.expression (if path.isEmpty then "/" else path) source faults)
  | .array items => do return list (← ofItems path 0 items)
  | .object entries => do return object (Entries.ofPairs (← ofEntries path entries))

def ofItems (path : String) (number : Nat) : List Document → Except TemplateFault (List Tree)
  | [] => .ok []
  | d :: rest => do
    let first ← ofDocument (extend path (toString number)) d
    return first :: (← ofItems path (number + 1) rest)

def ofEntries (path : String) :
    List (String × Document) → Except TemplateFault (List (String × Tree))
  | [] => .ok []
  | (key, d) :: rest => do
    let first ← ofDocument (extend path (escapeStep key)) d
    return (key, first) :: (← ofEntries path rest)

end

end OfDocument

/-- Compiles a document, which must be an object or an array. -/
def compileDocument (env : Environment) (d : Document) : Except TemplateFault Tree :=
  match d with
  | .object _ | .array _ => ofDocument env "" d
  | other => .error (.root other.kind)

/-- Compiles the text of a template. -/
def compile (env : Environment) (text : String) : Except TemplateFault Tree :=
  match Document.read? text with
  | some d => compileDocument env d
  | none => .error (.json text)

end Tree

end JsonTemplate
