/-
Operator sequences. `u0 o1 u1 … on un` is read from the left into a tree: each new operator goes
down the right edge below the operators that bind looser and takes what it finds as its left
side. The tree lists its operands and operators in the order they were given (`items_attach`).
-/
import JsonTemplate.Expr.Basic

namespace JsonTemplate

/-- A tree of binary operators over operands that it does not look into. -/
inductive OpTree (α : Type)
  | operand (value : α)
  | node (left : OpTree α) (op : BinaryOp) (right : OpTree α)
  deriving DecidableEq

namespace OpTree

variable {α : Type}

/-- Adds an operator and its right operand to the end. -/
def attach : OpTree α → BinaryOp → α → OpTree α
  | operand a, op, b => node (operand a) op (operand b)
  | node left o right, op, b =>
    if o.level < op.level then node left o (attach right op b)
    else node (node left o right) op (operand b)

/-- The tree of a first operand and the operators and operands after it. -/
def ofSequence (first : α) (rest : List (BinaryOp × α)) : OpTree α :=
  rest.foldl (fun tree (op, value) => tree.attach op value) (operand first)

/-- Operands and operators from left to right. -/
def items : OpTree α → List (α ⊕ BinaryOp)
  | operand a => [.inl a]
  | node left op right => left.items ++ .inr op :: right.items

theorem items_attach (tree : OpTree α) (op : BinaryOp) (b : α) :
    (tree.attach op b).items = tree.items ++ [.inr op, .inl b] := by
  induction tree with
  | operand a => rfl
  | node left o right _ ih =>
    by_cases h : o.level < op.level <;> simp [attach, h, items, ih]

/-- The expression of a tree; an operator spans from its left to its right side. -/
def toExpr : OpTree Expr → Expr
  | operand e => e
  | node left op right =>
    let l := left.toExpr
    let r := right.toExpr
    .binary (l.span.merge r.span) op l r

end OpTree

end JsonTemplate
