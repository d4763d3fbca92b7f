/-
The expression tree. Every node carries the span of the source text it was read from, and
literals are the scalar constants that can be written down.
-/
import JsonTemplate.Span
import JsonTemplate.Binary64.Basic

namespace JsonTemplate

/-- A constant in an expression. -/
inductive Literal
  | null
  | bool (value : Bool)
  | number (value : Binary64)
  | string (value : String)
  deriving DecidableEq

inductive UnaryOp
  | not
  | neg
  deriving DecidableEq, Repr

inductive BinaryOp
  | or | and
  | eq | ne | lt | le | gt | ge | mem
  | add | sub
  | mul | div | rem
  deriving DecidableEq, Repr

namespace BinaryOp

def symbol : BinaryOp → String
  | .or => "||"
  | .and => "&&"
  | .eq => "=="
  | .ne => "!="
  | .lt => "<"
  | .le => "<="
  | .gt => ">"
  | .ge => ">="
  | .mem => "in"
  | .add => "+"
  | .sub => "-"
  | .mul => "*"
  | .div => "/"
  | .rem => "%"

/-- How tightly an operator binds; operators of one level associate to the left. -/
def level : BinaryOp → Nat
  | .or => 0
  | .and => 1
  | .eq | .ne | .lt | .le | .gt | .ge | .mem => 2
  | .add | .sub => 3
  | .mul | .div | .rem => 4

end BinaryOp

/-- The loops that only test the items of their range. -/
inductive Quantifier
  | filter
  | all
  | any
  | one
  deriving DecidableEq, Repr

/-- An expression. `list` and `dict` are literals, `has` asks for a field without reading it,
`quantify` tests every item of `range` bound to `name`, and `collect` maps the items,
those that pass `test` if there is one. -/
inductive Expr
  | literal (span : Span) (value : Literal)
  | list (span : Span) (items : List Expr)
  | dict (span : Span) (entries : List (Expr × Expr))
  | ident (span : Span) (name : String)
  | select (span : Span) (operand : Expr) (field : String)
  | index (span : Span) (operand index : Expr)
  | call (span : Span) (target : Option Expr) (function : String) (args : List Expr)
  | has (span : Span) (operand : Expr) (field : String)
  | quantify (span : Span) (quantifier : Quantifier) (range : Expr) (name : String)
      (test : Expr)
  | collect (span : Span) (range : Expr) (name : String) (test : Option Expr) (image : Expr)
  | conditional (span : Span) (condition yes no : Expr)
  | binary (span : Span) (op : BinaryOp) (left right : Expr)
  | unary (span : Span) (op : UnaryOp) (operand : Expr)

namespace Expr

def span : Expr → Span
  | literal span _ | list span _ | dict span _ | ident span _ | select span _ _ | index span _ _
  | call span _ _ _ | has span _ _ | quantify span _ _ _ _ | collect span _ _ _ _
  | conditional span _ _ _ | binary span _ _ _ | unary span _ _ => span

def literal? : Expr → Option Literal
  | literal _ value => some value
  | _ => none

/-- The number of operands of a call, its target included. -/
def arity (target : Option Expr) (args : List Expr) : Nat := args.length + target.toList.length

end Expr

end JsonTemplate
