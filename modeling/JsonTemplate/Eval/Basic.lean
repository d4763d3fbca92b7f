/-
Evaluation. An expression gives a value in an environment and a context, or is interrupted. A
failure points at the innermost expression that failed. Each operand is evaluated at a place of
its own below that of the expression, so objects made by different calls never share an origin.
-/
import JsonTemplate.Environment
import JsonTemplate.Context
import JsonTemplate.Eval.Operation
import JsonTemplate.Eval.Loop

namespace JsonTemplate

/-- The items of a range at `span`. -/
def Value.range (span : Span) (value : Value) : Outcome (List Value) :=
  match value.rangeItems with
  | .ok items => .ok items
  | .error failure => .error (.failed (failure.withSpan span))

/-- The value of a free name. -/
def Context.resolve (context : Context) (name : String) : Outcome Value :=
  match context name with
  | some value => .ok value
  | none => .raise (.undeclaredReference name)

namespace Expr

variable (env : Environment)

mutual

def eval (e : Expr) (origin : Origin) (context : Context) : Outcome Value :=
  match e with
  | literal _ value => .ok (.ofLiteral value)
  | list span items => .located span do
    return .list (← evalItems items origin 0 context)
  | dict span entries => .located span do
    return .ofMap (← evalEntries entries origin 0 context)
  | ident span name => .located span (context.resolve name)
  | select span operand field => .located span do
    .ofResult ((← operand.eval (origin.child 0) context).select field)
  | index span operand i => .located span do
    let value ← operand.eval (origin.child 0) context
    .ofResult (value.index (← i.eval (origin.child 1) context))
  | call span target function args => .located span do
    let receiver ← evalOptional target (origin.child 0) context
    let args ← evalItems args origin 2 context
    env.call function (origin.child 1) receiver args
  | has span operand field => .located span do
    let value ← operand.eval (origin.child 0) context
    return .bool (← .ofResult (value.hasField field))
  | quantify span quantifier source name test => .located span do
    let items ← (← source.eval (origin.child 0) context).range source.span
    quantifier.run (fun number item =>
      (test.eval (origin.child (number + 1)) (context.bind name item)).condition test.span) items
  | collect span source name test image => .located span do
    let items ← (← source.eval (origin.child 0) context).range source.span
    return .list (← Loop.collect
      (fun number item => evalTest test (origin.child (2 * number + 1)) (context.bind name item))
      (fun number item => image.eval (origin.child (2 * number + 2)) (context.bind name item))
      0 items)
  | conditional span test yes no => .located span do
    if ← (test.eval (origin.child 0) context).condition test.span then
      yes.eval (origin.child 1) context
    else no.eval (origin.child 2) context
  | binary span op left right => .located span
    (op.outcome left.span right.span (left.eval (origin.child 0) context)
      fun _ => right.eval (origin.child 1) context)
  | unary span op operand => .located span do
    op.apply (← operand.eval (origin.child 0) context)

def evalOptional (e : Option Expr) (origin : Origin) (context : Context) :
    Outcome (Option Value) :=
  match e with
  | none => .ok none
  | some e => do return some (← e.eval origin context)

/-- A test that is not there is passed. -/
def evalTest (e : Option Expr) (origin : Origin) (context : Context) : Outcome Bool :=
  match e with
  | none => .ok true
  | some e => (e.eval origin context).condition e.span

def evalItems (items : List Expr) (origin : Origin) (part : Nat) (context : Context) :
    Outcome (List Value) :=
  match items with
  | [] => .ok []
  | e :: rest => do
    let value ← e.eval (origin.child part) context
    return value :: (← evalItems rest origin (part + 1) context)

def evalEntries (entries : List (Expr × Expr)) (origin : Origin) (part : Nat)
    (context : Context) : Outcome (List (String × Value)) :=
  match entries with
  | [] => .ok []
  | (k, e) :: rest => do
    let key ← .ofResult (← k.eval (origin.child part) context).mapKey
    let value ← e.eval (origin.child (part + 1)) context
    return (key, value) :: (← evalEntries rest origin (part + 2) context)

end

end Expr

end JsonTemplate
