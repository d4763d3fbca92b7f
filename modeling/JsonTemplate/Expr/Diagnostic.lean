/-
Faults of an expression found before it is evaluated, and their texts. A diagnostic is a fault
with the span it is about; `render` shows it under the line of source it points into. What a reader
says of a text that it does not take is given from outside (`Wording`).
-/
import JsonTemplate.Text.Position

namespace JsonTemplate

/-- What the readers say of a text that they do not take. -/
structure Wording where
  /-- Of a text that is no expression. -/
  expression : String → String
  /-- Of a text that is not JSON. -/
  json : String → String

/-- What is wrong with an expression. -/
inductive Fault
  /-- The text is not in the grammar. -/
  | syntaxError (source : String)
  /-- The presence test is not applied to one field selection. -/
  | hasArgument
  /-- A loop has the wrong number of arguments. -/
  | loopArity (loop expected : String) (got : Nat)
  /-- The first argument of a loop is not a name. -/
  | loopVariable (loop : String)
  | undeclaredName (name : String)
  | undeclaredFunction (name : String)
  /-- No overload fits a call; `shape` is its name, with the type of its target if it has one. -/
  | noOverload (shape : String) (argumentTypes : List String)
  /-- A fault stated by a host. -/
  | stated (message : String) (hint : Option String)
  deriving DecidableEq, Repr

namespace Fault

def message (wording : Wording) : Fault → String
  | syntaxError source => s!"syntax error: {wording.expression source}"
  | hasArgument => "invalid argument to has() macro"
  | loopArity loop expected got => s!"{loop}() macro expects {expected} arguments, got {got}"
  | loopVariable loop => s!"invalid variable in {loop}() macro"
  | undeclaredName name => s!"undeclared reference to '{name}'"
  | undeclaredFunction name => s!"undeclared reference to function '{name}'"
  | noOverload shape types =>
    let listed := ", ".intercalate types
    s!"found no matching overload for '{shape}' applied to ({listed})"
  | stated message _ => message

def hint? : Fault → Option String
  | hasArgument => some "has() expects a field selection such as has(data.name)"
  | loopVariable _ =>
    some "the first argument must be a simple name, e.g. list.map(e, e * 2)"
  | undeclaredName _ => some "declare it or bind it as a template variable"
  | undeclaredFunction _ => some "only registered functions can be called"
  | stated _ hint => hint
  | _ => none

end Fault

structure Diagnostic where
  span : Span
  fault : Fault
  deriving DecidableEq, Repr

namespace Diagnostic

def message (wording : Wording) (d : Diagnostic) : String := d.fault.message wording

def spaces (count : Nat) : String := String.ofList (List.replicate count ' ')

/-- The number of a line, set to the right in three places. -/
def lineNumber (line : Nat) : String :=
  let digits := toString line
  spaces (3 - digits.length) ++ digits

/-- The message, the place, the line of source and a run of carets as long as the span is in
bytes, then the hint. -/
def render (wording : Wording) (d : Diagnostic) (source : String) (location : Option String) :
    String :=
  let place := Text.position source d.span.start
  let file := match location with
    | some name => name ++ ":"
    | none => ""
  let line := Text.line source place.line
  let carets := String.ofList (List.replicate (max d.span.length 1) '^')
  let text :=
    s!"Error: {d.message wording}\n --> {file}{place.line}:{place.column}\n  |\n"
      ++ s!"{lineNumber place.line} | {line}\n    | {spaces (place.column - 1)}{carets}"
  match d.fault.hint? with
  | some hint => s!"{text}\n  = hint: {hint}"
  | none => text

end Diagnostic

end JsonTemplate
