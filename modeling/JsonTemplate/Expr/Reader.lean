/-
The reader of expressions. It decides on the next token and never goes back, so the token it
stops at is the first one at which no expression can go on; a syntax error is reported there.
Readers of parts take the reader `sub` of a nested expression as an argument, and `expression`
ties the knot with a bound on the nesting. A reader of many parts has a budget of tokens, one for
each round; it starts with the tokens it is given, which is always enough.
-/
import JsonTemplate.Expr.Token
import JsonTemplate.Expr.Escape
import JsonTemplate.Expr.Operator
import JsonTemplate.Expr.Macro

namespace JsonTemplate.Reader

/-- Reads something from the front of the tokens, or gives the offset where it is stuck. -/
abbrev Reads (α : Type) := List Token → Except Nat (α × List Token)

/-- Where the next token starts. -/
def startOf : List Token → Nat
  | [] => 0
  | token :: _ => token.span.start

def stuck (tokens : List Token) : Except Nat α := .error (startOf tokens)

/-- Reads one mark and gives its end. -/
def mark (c : Char) : Reads Nat
  | token :: rest => if token.isMark c then .ok (token.span.stop, rest) else stuck (token :: rest)
  | [] => stuck []

/-! ## Operators -/

/-- An operator of one or two touching marks, or the word `in`. -/
def operator? : List Token → Option (BinaryOp × List Token)
  | first :: rest =>
    match first.form with
    | .word name => if name = "in" then some (.mem, rest) else none
    | .mark c =>
      let second : Option Char := match rest with
        | second@⟨.mark d, _⟩ :: _ => if first.touches second then some d else none
        | _ => none
      match c, second with
      | '|', some '|' => some (.or, rest.tail)
      | '&', some '&' => some (.and, rest.tail)
      | '=', some '=' => some (.eq, rest.tail)
      | '!', some '=' => some (.ne, rest.tail)
      | '<', some '=' => some (.le, rest.tail)
      | '>', some '=' => some (.ge, rest.tail)
      | '<', _ => some (.lt, rest)
      | '>', _ => some (.gt, rest)
      | '+', _ => some (.add, rest)
      | '-', _ => some (.sub, rest)
      | '*', _ => some (.mul, rest)
      | '/', _ => some (.div, rest)
      | '%', _ => some (.rem, rest)
      | _, _ => none
    | _ => none
  | [] => none

/-- The signs and negations in front of an operand. -/
def unaryOps : List Token → List UnaryOp × List Token
  | token :: rest =>
    let op? : Option UnaryOp :=
      if token.isMark '!' then some .not else if token.isMark '-' then some .neg else none
    match op? with
    | some op =>
      let (ops, after) := unaryOps rest
      (op :: ops, after)
    | none => ([], token :: rest)
  | [] => ([], [])

/-- A minus before a numeral makes a negative numeral. -/
def applyUnary (span : Span) : UnaryOp → Expr → Expr
  | .neg, .literal _ (.number n) => .literal span (.number n.neg)
  | op, operand => .unary span op operand

/-! ## Parts -/

section Parts

variable (sub : Reads Expr)

/-- Items up to a closing mark, with a comma after each but perhaps the last; also gives the
end of the closing mark. -/
def items (item : Reads α) (close : Char) : (budget : List Token) → Reads (List α × Nat)
  | [], tokens => stuck tokens
  | _ :: budget, tokens =>
    match mark close tokens with
    | .ok (stop, rest) => .ok (([], stop), rest)
    | .error _ => do
      let (first, rest) ← item tokens
      match mark ',' rest with
      | .ok (_, rest) =>
        let ((others, stop), rest) ← items item close budget rest
        return ((first :: others, stop), rest)
      | .error _ =>
        let (stop, rest) ← mark close rest
        return (([first], stop), rest)

/-- `key: value`. -/
def entry : Reads (Expr × Expr) := fun tokens => do
  let (key, rest) ← sub tokens
  let (_, rest) ← mark ':' rest
  let (value, rest) ← sub rest
  return ((key, value), rest)

/-- A literal, a name, a call of a function or an expression in parentheses. -/
def primary : Reads Expr
  | [] => stuck []
  | token :: rest =>
    let span := token.span
    match token.form with
    | .number value => .ok (.literal span (.number value), rest)
    | .string body => .ok (.literal span (.string (String.ofList (Escape.decode body))), rest)
    | .word "true" => .ok (.literal span (.bool true), rest)
    | .word "false" => .ok (.literal span (.bool false), rest)
    | .word "null" => .ok (.literal span .null, rest)
    | .word name =>
      match mark '(' rest with
      | .ok (_, rest) => do
        let ((args, stop), rest) ← items sub ')' rest rest
        return (.call ⟨span.start, stop⟩ none name args, rest)
      | .error _ => .ok (.ident span name, rest)
    | .mark '(' => do
      let (inner, rest) ← sub rest
      let (_, rest) ← mark ')' rest
      return (inner, rest)
    | .mark '[' => do
      let ((elements, stop), rest) ← items sub ']' rest rest
      return (.list ⟨span.start, stop⟩ elements, rest)
    | .mark '\x7b' => do
      let ((entries, stop), rest) ← items (entry sub) '\x7d' rest rest
      return (.dict ⟨span.start, stop⟩ entries, rest)
    | _ => stuck (token :: rest)

/-- What follows a dot: a field, or a call on the operand. The second number is its end. -/
def member (operand : Expr) : Reads (Expr × Nat)
  | ⟨.word name, span⟩ :: rest =>
    match mark '(' rest with
    | .ok (_, rest) => do
      let ((args, stop), rest) ← items sub ')' rest rest
      let whole := operand.span.merge ⟨span.start, stop⟩
      return ((.call whole (some operand) name args, stop), rest)
    | .error _ => .ok ((.select (operand.span.merge span) operand name, span.stop), rest)
  | tokens => stuck tokens

/-- Selections, indices and calls after an operand; `stop` is the end of the last one. -/
def postfixes (operand : Expr) (stop : Option Nat) :
    (budget : List Token) → Reads (Expr × Option Nat)
  | [], tokens => .ok ((operand, stop), tokens)
  | _ :: budget, tokens =>
    match mark '.' tokens with
    | .ok (_, rest) => do
      let ((operand, stop), rest) ← member sub operand rest
      postfixes operand (some stop) budget rest
    | .error _ =>
      match mark '[' tokens with
      | .ok (_, rest) => do
        let (i, rest) ← sub rest
        let (stop, rest) ← mark ']' rest
        let span := operand.span.merge ⟨startOf tokens, stop⟩
        postfixes (.index span operand i) (some stop) budget rest
      | .error _ => .ok ((operand, stop), tokens)

/-- An operand with what stands before and after it. The unary operators all span from the
first of them to the end of the operand, or to the next token if nothing is selected from it. -/
def operand : Reads Expr := fun tokens => do
  let (ops, rest) := unaryOps tokens
  let (first, rest) ← primary sub rest
  let ((whole, stop), rest) ← postfixes sub first none rest rest
  let span : Span := ⟨startOf tokens, stop.getD (startOf rest)⟩
  return (ops.foldr (applyUnary span) whole, rest)

/-- The operators and operands after a first operand. -/
def operations : (budget : List Token) → Reads (List (BinaryOp × Expr))
  | [], tokens => .ok ([], tokens)
  | _ :: budget, tokens =>
    match operator? tokens with
    | none => .ok ([], tokens)
    | some (op, rest) => do
      let (right, rest) ← operand sub rest
      let (others, rest) ← operations budget rest
      return ((op, right) :: others, rest)

/-- A sequence of operands and operators, put together by how tightly they bind. -/
def sequence : Reads Expr := fun tokens => do
  let (first, rest) ← operand sub tokens
  let (others, rest) ← operations sub rest rest
  return ((OpTree.ofSequence first others).toExpr, rest)

/-- A sequence, or a choice of two expressions by one. -/
def choice : Reads Expr := fun tokens => do
  let (condition, rest) ← sequence sub tokens
  match mark '?' rest with
  | .error _ => return (condition, rest)
  | .ok (_, rest) =>
    let (yes, rest) ← sub rest
    let (_, rest) ← mark ':' rest
    let (no, rest) ← sub rest
    return (.conditional ⟨startOf tokens, startOf rest⟩ condition yes no, rest)

end Parts

/-! ## The whole text -/

/-- An expression nested at most `bound` deep. -/
def expression : (bound : Nat) → Reads Expr
  | 0 => stuck
  | bound + 1 => choice (expression bound)

/-- All tokens as one expression, calls not yet expanded. -/
def readAll (tokens : List Token) : Except Nat Expr := do
  match ← expression (tokens.length + 1) tokens with
  | (e, [⟨.finish, _⟩]) => return e
  | (_, rest) => stuck rest

end JsonTemplate.Reader

namespace JsonTemplate.Expr

/-- Reads an expression from its source text. -/
def parse (source : String) : Except Diagnostic Expr :=
  match Reader.readAll (Token.ofSource source) with
  | .ok e => e.expandMacros
  | .error offset => .error ⟨⟨offset, offset + 1⟩, .syntaxError source⟩

end JsonTemplate.Expr
