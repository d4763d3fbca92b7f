/-
Values and JSON documents. `ofDocument` reads a document as a value. `toDocument` writes a value:
whole numbers up to 2^53 as integers, other finite numbers as doubles, the rest as null; an
object whose type allows it entry by entry, any other by the name of its type.
-/
import JsonTemplate.Value.Basic
import JsonTemplate.Document.Writer

namespace JsonTemplate

/-- Why a value has no JSON form. -/
inductive WriteFault
  /-- An object listed a key that is not a string. -/
  | key (typeName : String)
  /-- An object failed to give the value of a key that it listed. -/
  | get (failure : Failure)
  deriving DecidableEq

def WriteFault.message : WriteFault → String
  | key typeName => s!"{typeName} yielded a non-string key"
  | get failure => failure.message

/-- The form of a number in JSON. -/
def Document.ofBinary64 (n : Binary64) : Document :=
  match n.toInt? with
  | some i => number (if i.natAbs ≤ Nat.pow 2 53 then .integer i else .double n)
  | none => if n.isFinite then number (.double n) else null

namespace Value

mutual

def ofDocument : Document → Value
  | .null => null
  | .bool b => bool b
  | .number n => number n.toBinary64
  | .string s => string s
  | .array items => list (ofDocuments items)
  | .object entries => map (ofDocumentEntries entries)

def ofDocuments : List Document → List Value
  | [] => []
  | d :: rest => ofDocument d :: ofDocuments rest

def ofDocumentEntries : List (String × Document) → List (String × Value)
  | [] => []
  | (key, d) :: rest => (key, ofDocument d) :: ofDocumentEntries rest

end

section Write

variable {α : Type} (w : Document.Writer α)

mutual

/-- A value as it is written out: a key that an object lists twice stands twice, and an object
announces as many entries as it says that it has. -/
def write : Value → Except WriteFault α
  | null => .ok (w.leaf .null)
  | bool b => .ok (w.leaf (.bool b))
  | number n => .ok (w.leaf (.ofBinary64 n))
  | string s => .ok (w.leaf (.string s))
  | list items => do return w.array (← writeItems items)
  | map entries => do return w.object entries.length (← writeEntries entries)
  | record _ entries => do return w.object entries.length (← writeEntries entries)
  | host _ type get _ keys size =>
    if type.traits.iterable && type.traits.indexed then do
      let entries ← keys.mapM fun
        | string key => do return (key, ← writeResult (get key))
        | _ => .error (.key type.name)
      return w.object size entries
    else .ok (w.leaf (.string type.name))

def writeResult : Except Failure Value → Except WriteFault α
  | .ok v => v.write
  | .error failure => .error (.get failure)

def writeItems : List Value → Except WriteFault (List α)
  | [] => .ok []
  | v :: rest => do
    let written ← v.write
    return written :: (← writeItems rest)

def writeEntries : List (String × Value) → Except WriteFault (List (String × α))
  | [] => .ok []
  | (key, v) :: rest => do
    let written ← v.write
    return (key, written) :: (← writeEntries rest)

end

end Write

/-- The document as it is written out. -/
def emit (v : Value) : Except WriteFault Document := v.write .document

/-- The document of a value, each key once. -/
def toDocument (v : Value) : Except WriteFault Document := v.emit.map Document.distinct

/-- The compact JSON text of a value. -/
def toJson (v : Value) : Except WriteFault String := v.write .text

end Value

end JsonTemplate
