/-
The standard functions. Conversions and `size` work on the receiver or on one argument alike;
the functions on strings and lists are called on a receiver. A function checks its own
arguments, though a call that its signature accepts never fails such a check.
-/
import JsonTemplate.Function.Signature
import JsonTemplate.Function.Numeral
import JsonTemplate.Text.Blank
import JsonTemplate.Text.Pieces

namespace JsonTemplate.Standard

/-- What a function does with a receiver and arguments, wherever it is called. -/
abbrev Body := Option Value → List Value → Outcome Value

/-! ## Reading arguments -/

/-- The receiver, or else the first argument. -/
def operand (receiver : Option Value) (args : List Value) : Value :=
  (receiver.or args.head?).getD .null

def receiverString : Option Value → Outcome String
  | some (.string s) => .ok s
  | some other => .raise (.unexpected "string" other.typeName)
  | none => .raise (.unexpected "string" "null")

def receiverList : Option Value → Outcome (List Value)
  | some (.list items) => .ok items
  | some other => .raise (.unexpected "list" other.typeName)
  | none => .raise (.unexpected "list" "null")

def stringArg (args : List Value) (position : Nat) : Outcome String :=
  match args[position]? with
  | some (.string s) => .ok s
  | some other => .raise (.unexpected "string" other.typeName)
  | none => .raise (.missingPosition position)

/-- The greatest position; greater numbers are taken for it. -/
def maxPosition : Nat := Nat.pow 2 64 - 1

/-- A whole number that is not negative. -/
def position : Option Value → Outcome Nat
  | some (.number n) =>
    match n.toInt? with
    | some (.ofNat i) => .ok (min i maxPosition)
    | _ => .raise (.unexpected "non-negative integer" "number")
  | some other => .raise (.unexpected "non-negative integer" other.typeName)
  | none => .raise (.unexpected "non-negative integer" "null")

/-! ## Conversions -/

/-- Characters of a string, items of a list, entries of a map, or what a sized object says. -/
def size : Body := fun receiver args =>
  match operand receiver args with
  | .string s => .ok (.ofNat s.length)
  | .list items => .ok (.ofNat items.length)
  | .map entries => .ok (.ofNat entries.length)
  | other =>
    match other.face?.filter fun face => face.type.traits.sized with
    | some face => .ok (.ofNat face.size)
    | none => .raise (.noSuchOverload "size" [other.typeName])

def string : Body := fun receiver args =>
  match operand receiver args with
  | .list _ => .raise (.conversion "list" "string")
  | .map _ => .raise (.conversion "map" "string")
  | other => .ok (.string other.display)

/-- A failed conversion with what was wrong with the text. -/
def unreadable (target : String) (fault : NumeralFault) : Interrupt :=
  .failed ((Failure.of (.conversion "string" target)).withBeneath fault.message)

def int : Body := fun receiver args =>
  match operand receiver args with
  | .number n =>
    if n.isFinite then .ok (.number n.trunc) else .raise (.conversion "number" "int")
  | .string s =>
    match Numeral.integer (Text.trim s.toList) with
    | .ok i => .ok (.number (.ofInt i))
    | .error fault => .error (unreadable "int" fault)
  | other => .raise (.conversion other.typeName "int")

def double : Body := fun receiver args =>
  match operand receiver args with
  | .number n => .ok (.number n)
  | .string s =>
    match Numeral.number (Text.trim s.toList) with
    | .ok n => .ok (.number n)
    | .error fault => .error (unreadable "double" fault)
  | other => .raise (.conversion other.typeName "double")

def bool : Body := fun receiver args =>
  match operand receiver args with
  | .bool b => .ok (.bool b)
  | .string s =>
    if s = "true" then .ok (.bool true)
    else if s = "false" then .ok (.bool false)
    else .raise (.conversion "string" "bool")
  | other => .raise (.conversion other.typeName "bool")

def type : Body := fun receiver args => .ok (.string (operand receiver args).typeName)

def dyn : Body := fun receiver args => .ok (operand receiver args)

/-! ## Strings -/

def contains : Body := fun receiver args => do
  let s ← receiverString receiver
  return .bool (Text.occursIn (← stringArg args 0).toList s.toList)

def startsWith : Body := fun receiver args => do
  let s ← receiverString receiver
  return .bool ((← stringArg args 0).toList.isPrefixOf s.toList)

def endsWith : Body := fun receiver args => do
  let s ← receiverString receiver
  return .bool ((← stringArg args 0).toList.isSuffixOf s.toList)

def split : Body := fun receiver args => do
  let s ← receiverString receiver
  let separator ← stringArg args 0
  return .list ((Text.pieces separator.toList s.toList).map fun piece =>
    .string (String.ofList piece))

/-- The string with every character replaced; only ASCII letters have a case here. -/
def mapChars (f : Char → Char) : Body := fun receiver _ => do
  return .string (String.ofList ((← receiverString receiver).toList.map f))

def lowerAscii : Body := mapChars Char.toLower

def upperAscii : Body := mapChars Char.toUpper

def trim : Body := fun receiver _ => do
  return .string (String.ofList (Text.trim (← receiverString receiver).toList))

/-! ## Lists -/

def stringItem : Value → Outcome String
  | .string s => .ok s
  | other => .raise (.unexpected "list of strings" other.typeName)

def join : Body := fun receiver args => do
  let items ← receiverList receiver
  let separator ← if args.isEmpty then pure "" else stringArg args 0
  return .string (separator.intercalate (← items.mapM stringItem))

def slice : Body := fun receiver args => do
  let items ← receiverList receiver
  let start ← position args[0]?
  let stop ← position args[1]?
  if start ≤ stop ∧ stop ≤ items.length then
    return .list ((items.take stop).drop start)
  else .raise (.sliceOutOfRange start stop items.length)

/-- Replaces lists by their items, as often as `depth` says. -/
def flattenItems : (depth : Nat) → List Value → List Value
  | 0, items => items
  | depth + 1, items => items.flatMap fun
    | .list inner => flattenItems depth inner
    | other => [other]

def flatten : Body := fun receiver args => do
  let items ← receiverList receiver
  let depth ← match args[0]? with
    | some v => position (some v)
    | none => pure 1
  return .list (flattenItems depth items)

/-! ## The library -/

/-- Called as `f(x)` and as `x.f()`. -/
def onAny (name : String) (body : Body) : Function :=
  ⟨⟨name, [⟨none, [⟨"value", .any, true⟩]⟩, ⟨some .any, []⟩]⟩, fun _ => body⟩

/-- Called on a receiver. -/
def onReceiver (name : String) (type : ValueType) (parameters : List Parameter) (body : Body) :
    Function :=
  ⟨⟨name, [⟨some type, parameters⟩]⟩, fun _ => body⟩

def functions : List Function :=
  [onAny "size" size,
    onAny "string" string,
    onAny "int" int,
    onAny "double" double,
    onAny "bool" bool,
    onAny "type" type,
    onAny "dyn" dyn,
    onReceiver "contains" .string [⟨"text", .string, true⟩] contains,
    onReceiver "startsWith" .string [⟨"text", .string, true⟩] startsWith,
    onReceiver "endsWith" .string [⟨"text", .string, true⟩] endsWith,
    onReceiver "split" .string [⟨"text", .string, true⟩] split,
    onReceiver "lowerAscii" .string [] lowerAscii,
    onReceiver "upperAscii" .string [] upperAscii,
    onReceiver "trim" .string [] trim,
    onReceiver "join" .list [⟨"separator", .string, false⟩] join,
    onReceiver "slice" .list [⟨"start", .number, true⟩, ⟨"end", .number, true⟩] slice,
    onReceiver "flatten" .list [⟨"depth", .number, false⟩] flatten]

end JsonTemplate.Standard
