/-
Functions with typed parameters. A parameter type reads a value as data of its own and names
what it expected when it cannot; parameters are read in order and the first failure ends the
call. A few functions that hosts like to offer are given in this way.
-/
import JsonTemplate.Function.Signature

namespace JsonTemplate

/-- How values of one type are read. -/
structure Typed (α : Type) where
  type : ValueType
  name : String
  read? : Value → Option α

namespace Typed

def string : Typed String where
  type := .string
  name := "string"
  read?
    | .string s => some s
    | _ => none

def number : Typed Binary64 where
  type := .number
  name := "number"
  read?
    | .number n => some n
    | _ => none

def bool : Typed Bool where
  type := .bool
  name := "bool"
  read?
    | .bool b => some b
    | _ => none

def list : Typed (List Value) where
  type := .list
  name := "list"
  read?
    | .list items => some items
    | _ => none

def any : Typed Value := ⟨.any, "any", some⟩

/-- Reads a value that must be there. -/
def read (t : Typed α) (role name : String) : Option Value → Outcome α
  | some v => match t.read? v with
    | some a => .ok a
    | none => .raise (.unexpected t.name v.typeName)
  | none => .raise (.missingParameter role name)

/-- A global function of one parameter. -/
def unary (t : Typed α) (name parameter : String) (body : α → Outcome Value) : Function where
  signature := ⟨name, [⟨none, [⟨parameter, t.type, true⟩]⟩]⟩
  call _ _ args := do body (← t.read "argument" parameter args[0]?)

/-- A function on a receiver with one parameter. -/
def onReceiver (t : Typed α) (u : Typed β) (name receiver parameter : String)
    (body : α → β → Outcome Value) : Function where
  signature := ⟨name, [⟨some t.type, [⟨parameter, u.type, true⟩]⟩]⟩
  call _ target args := do
    let a ← t.read "receiver" receiver target
    body a (← u.read "argument" parameter args[0]?)

end Typed

namespace HostFunctions

/-- The first item of a list. -/
def first : Function := Typed.list.unary "first" "items" fun
  | item :: _ => .ok item
  | [] => .raise (.stated .host "empty list")

def bracket : Function := Typed.string.unary "bracket" "text" fun text =>
  .ok (.string ("[" ++ text ++ "]"))

def doubleIt : Function := Typed.number.unary "double_it" "n" fun n =>
  .ok (.number (n.mul (.ofNat 2)))

def yesNo : Function := Typed.bool.unary "yesno" "value" fun value =>
  .ok (.string (if value then "yes" else "no"))

/-- The receiver, as often as the nearest whole number says. -/
def repeatText : Function :=
  Typed.string.onReceiver Typed.number "repeat" "text" "count" fun text count =>
    let copies := if text.isEmpty then 0 else count.toCount (Nat.pow 2 64 - 1)
    .ok (.string (String.join (List.replicate copies text)))

/-- The type of a value and its text. -/
def describe : Function := Typed.any.unary "describe" "value" fun value =>
  .ok (.string (value.typeName ++ " " ++ value.display))

def all : List Function := [first, bracket, doubleIt, yesNo, repeatText, describe]

end HostFunctions

end JsonTemplate
