/-
How an evaluation fails. A failure has a cause, the span of the source it points into once it
has passed an expression, and the text of what lies beneath it, if anything does. The kind and
the message are read off the cause.
-/
import JsonTemplate.Span
import JsonTemplate.Binary64.Layout

namespace JsonTemplate

/-- What sort of failure this is, for those who decide by it. -/
inductive FailureKind
  | noSuchKey
  | undeclaredReference
  | noSuchOverload
  | typeError
  | indexOutOfRange
  | arithmetic
  | conversion
  | fragmentNotFound
  | host
  deriving DecidableEq, Repr

inductive Cause
  | noSuchKey (key : String)
  | undeclaredReference (name : String)
  /-- Neither an operator nor a function takes operands of these types. -/
  | noSuchOverload (function : String) (types : List String)
  | unexpected (expected got : String)
  /-- An argument that a function reads by position is not there. -/
  | missingPosition (position : Nat)
  /-- A typed parameter is not there; `role` says what it would have been. -/
  | missingParameter (role name : String)
  | indexOutOfRange (index : Binary64) (length : Nat)
  | sliceOutOfRange (start stop length : Nat)
  | divisionByZero
  | modulusByZero
  | conversion (source target : String)
  | fragmentNotFound (name : String)
  /-- A failure stated by a host. -/
  | stated (kind : FailureKind) (message : String)
  deriving DecidableEq

namespace Cause

def kind : Cause → FailureKind
  | noSuchKey _ => .noSuchKey
  | undeclaredReference _ => .undeclaredReference
  | noSuchOverload _ _ => .noSuchOverload
  | unexpected _ _ | missingPosition _ | missingParameter _ _ => .typeError
  | indexOutOfRange _ _ | sliceOutOfRange _ _ _ => .indexOutOfRange
  | divisionByZero | modulusByZero => .arithmetic
  | conversion _ _ => .conversion
  | fragmentNotFound _ => .fragmentNotFound
  | stated kind _ => kind

def message : Cause → String
  | noSuchKey key => s!"no such key: {key}"
  | undeclaredReference name => s!"undeclared reference to '{name}'"
  | noSuchOverload function types =>
    let listed := ", ".intercalate types
    s!"no such overload: {function}({listed})"
  | unexpected expected got => s!"expected {expected}, got {got}"
  | missingPosition position => s!"missing required argument at position {position}"
  | missingParameter role name => s!"missing required {role}: {name}"
  | indexOutOfRange index length => s!"index out of range: {index.plain} (length {length})"
  | sliceOutOfRange start stop length =>
    s!"cannot slice({start}, {stop}) a list of length {length}"
  | divisionByZero => "division by zero"
  | modulusByZero => "modulus by zero"
  | conversion source target => s!"type conversion error from '{source}' to '{target}'"
  | fragmentNotFound name => s!"fragment not found: {name}"
  | stated _ message => message

end Cause

structure Failure where
  cause : Cause
  span : Option Span
  /-- The text of the failure beneath this one. -/
  beneath : Option String
  deriving DecidableEq

namespace Failure

def of (cause : Cause) : Failure := ⟨cause, none, none⟩

def kind (f : Failure) : FailureKind := f.cause.kind

def message (f : Failure) : String := f.cause.message

def withSpan (f : Failure) (span : Span) : Failure := { f with span := some span }

/-- Sets the span unless there is one: the innermost expression is the one blamed. -/
def orSpan (f : Failure) (span : Span) : Failure :=
  match f.span with
  | some _ => f
  | none => f.withSpan span

def withBeneath (f : Failure) (text : String) : Failure := { f with beneath := some text }

end Failure

/-- An evaluation that ends without a value: the entry being made is given up, or it failed. -/
inductive Interrupt
  | removed
  | failed (failure : Failure)
  deriving DecidableEq

namespace Interrupt

def orSpan (span : Span) : Interrupt → Interrupt
  | removed => removed
  | failed f => failed (f.orSpan span)

end Interrupt

/-- What may come of an evaluation. -/
abbrev Outcome (α : Type) := Except Interrupt α

namespace Outcome

/-- Stops with a cause that has not yet been placed. -/
def raise (cause : Cause) : Outcome α := .error (.failed (.of cause))

/-- A failure stops the evaluation. -/
def ofResult : Except Failure α → Outcome α
  | .ok a => .ok a
  | .error failure => .error (.failed failure)

/-- Points a failure that has no span yet at `span`. -/
def located (span : Span) : Outcome α → Outcome α
  | .ok a => .ok a
  | .error i => .error (i.orSpan span)

end Outcome

end JsonTemplate
