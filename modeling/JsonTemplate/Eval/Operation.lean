/-
What the operators do with values. A logical operator takes the outcomes of both sides, since a
side that decides wins over a failure of the other; every other operator needs both values. The
right side is only asked for when the left one has not settled the outcome.
-/
import JsonTemplate.Value.Access

namespace JsonTemplate

/-- The value of an expression at `span` as a condition. -/
def Outcome.condition (span : Span) : Outcome Value → Outcome Bool
  | .ok (.bool b) => .ok b
  | .ok other => .error (.failed ((Failure.of (.unexpected "bool" other.typeName)).withSpan span))
  | .error i => .error i

namespace UnaryOp

def symbol : UnaryOp → String
  | not => "!_"
  | neg => "-_"

def apply : UnaryOp → Value → Outcome Value
  | not, .bool b => .ok (.bool !b)
  | neg, .number n => .ok (.number n.neg)
  | op, other => .raise (.noSuchOverload op.symbol [other.typeName])

end UnaryOp

/-! ## Logic -/

/-- The outcome of `or` (decided by true) or `and` (decided by false) from those of its sides.
If neither decides, the first side that was interrupted does. -/
def logical (decisive : Bool) (left : Outcome Bool) (right : Unit → Outcome Bool) :
    Outcome Bool :=
  match left with
  | .ok a =>
    if a = decisive then .ok decisive
    else match right () with
      | .ok b => if b = decisive then .ok decisive else .ok !decisive
      | .error i => .error i
  | .error i =>
    match right () with
    | .ok b => if b = decisive then .ok decisive else .error i
    | .error _ => .error i

namespace BinaryOp

/-- The side that decides a logical operator alone. -/
def decisive? : BinaryOp → Option Bool
  | or => some true
  | and => some false
  | _ => none

/-! ## Comparison and arithmetic -/

/-- The operator does not take these operands. -/
def refuse (op : BinaryOp) (left right : Value) : Outcome α :=
  .raise (.noSuchOverload s!"_{op.symbol}_" [left.typeName, right.typeName])

/-- Numbers, strings and booleans are ordered among themselves; a NaN has no place. -/
def order? : Value → Value → Option (Option Ordering)
  | .number a, .number b => some (a.compare? b)
  | .string a, .string b => some (some (compare a b))
  | .bool a, .bool b => some (some (compare a b))
  | _, _ => none

/-- Whether an ordering fulfils a comparison. -/
def holds : BinaryOp → Ordering → Bool
  | lt, o => o.isLT
  | le, o => o.isLE
  | gt, o => o.isGT
  | ge, o => o.isGE
  | _, _ => false

def comparison (op : BinaryOp) (left right : Value) : Outcome Value :=
  match order? left right with
  | some (some o) => .ok (.bool (op.holds o))
  | some none => .ok (.bool false)
  | none => op.refuse left right

/-- Operators on two numbers; a zero may not divide. -/
def arithmetic (op : BinaryOp) (left right : Value) : Outcome Value :=
  match left, right with
  | .number a, .number b =>
    match op with
    | sub => .ok (.number (a.sub b))
    | mul => .ok (.number (a.mul b))
    | div => if b.isZero then .raise .divisionByZero else .ok (.number (a.div b))
    | rem => if b.isZero then .raise .modulusByZero else .ok (.number (a.rem b))
    | _ => op.refuse left right
  | _, _ => op.refuse left right

/-- Numbers are summed, strings and lists put together. -/
def addition : Value → Value → Outcome Value
  | .number a, .number b => .ok (.number (a.add b))
  | .string a, .string b => .ok (.string (a ++ b))
  | .list a, .list b => .ok (.list (a ++ b))
  | left, right => add.refuse left right

/-- An operator on the values of its operands. -/
def apply (op : BinaryOp) (left right : Value) : Outcome Value :=
  match op with
  | eq => .ok (.bool (left.equal right))
  | ne => .ok (.bool !(left.equal right))
  | mem => do return .bool (← .ofResult (right.contains left))
  | lt | le | gt | ge => op.comparison left right
  | add => addition left right
  | sub | mul | div | rem => op.arithmetic left right
  | or | and => op.refuse left right

/-- An operator on the outcomes of its operands, which stand at the two spans. -/
def outcome (op : BinaryOp) (leftSpan rightSpan : Span) (left : Outcome Value)
    (right : Unit → Outcome Value) : Outcome Value :=
  match op.decisive? with
  | some decisive => do
    return .bool (← logical decisive (left.condition leftSpan)
      fun _ => (right ()).condition rightSpan)
  | none => do
    let a ← left
    op.apply a (← right ())

end BinaryOp

end JsonTemplate
