/-
Calls with a meaning of their own. The reader leaves `has(...)` and the loops over a range as
calls; `expandMacros` replaces them by nodes of their own from the leaves up and stops at the
first one, in the order of the source, that is not formed as it must be.
-/
import JsonTemplate.Expr.Basic
import JsonTemplate.Expr.Diagnostic

namespace JsonTemplate

/-- A loop as it is written: `x.map(…)` or a quantifier. -/
inductive LoopWord
  | map
  | quantifier (q : Quantifier)
  deriving DecidableEq, Repr

namespace LoopWord

def ofName? : String → Option LoopWord
  | "map" => some map
  | "filter" => some (quantifier .filter)
  | "all" => some (quantifier .all)
  | "exists" => some (quantifier .any)
  | "exists_one" => some (quantifier .one)
  | _ => none

def name : LoopWord → String
  | map => "map"
  | quantifier .filter => "filter"
  | quantifier .all => "all"
  | quantifier .any => "exists"
  | quantifier .one => "exists_one"

/-- The argument counts a loop takes, as its message gives them. -/
def counts : LoopWord → String
  | map => "2 or 3"
  | quantifier _ => "2"

theorem ofName?_name (w : LoopWord) : ofName? w.name = some w := by
  cases w with
  | map => rfl
  | quantifier q => cases q <;> rfl

end LoopWord

namespace Expr

/-- The name bound by a loop, from its first argument. -/
def loopName (word : LoopWord) : Expr → Except Diagnostic String
  | ident _ name => .ok name
  | e => .error ⟨e.span, .loopVariable word.name⟩

/-- The loop `range.word(args)`. -/
def ofLoop (span : Span) (word : LoopWord) (range : Expr) (args : List Expr) :
    Except Diagnostic Expr :=
  match word, args with
  | .map, [e, image] => do return collect span range (← loopName word e) none image
  | .map, [e, test, image] => do return collect span range (← loopName word e) (some test) image
  | .quantifier q, [e, test] => do return quantify span q range (← loopName word e) test
  | _, _ => .error ⟨span, .loopArity word.name word.counts args.length⟩

/-- A call whose parts are already expanded. -/
def ofCall (span : Span) (target : Option Expr) (function : String) (args : List Expr) :
    Except Diagnostic Expr :=
  match target with
  | none =>
    if function = "has" then
      match args with
      | [select _ operand field] => .ok (has span operand field)
      | _ => .error ⟨span, .hasArgument⟩
    else .ok (call span none function args)
  | some range =>
    match LoopWord.ofName? function with
    | some word => ofLoop span word range args
    | none => .ok (call span (some range) function args)

mutual

def expandMacros : Expr → Except Diagnostic Expr
  | literal span value => .ok (literal span value)
  | ident span name => .ok (ident span name)
  | list span items => do return list span (← expandItems items)
  | dict span entries => do return dict span (← expandEntries entries)
  | select span operand field => do return select span (← operand.expandMacros) field
  | index span operand i => do
    let operand ← operand.expandMacros
    return index span operand (← i.expandMacros)
  | call span target function args => do
    let target ← expandOptional target
    ofCall span target function (← expandItems args)
  | has span operand field => do return has span (← operand.expandMacros) field
  | quantify span q range name test => do
    let range ← range.expandMacros
    return quantify span q range name (← test.expandMacros)
  | collect span range name test image => do
    let range ← range.expandMacros
    let test ← expandOptional test
    return collect span range name test (← image.expandMacros)
  | conditional span condition yes no => do
    let condition ← condition.expandMacros
    let yes ← yes.expandMacros
    return conditional span condition yes (← no.expandMacros)
  | binary span op left right => do
    let left ← left.expandMacros
    return binary span op left (← right.expandMacros)
  | unary span op operand => do return unary span op (← operand.expandMacros)

def expandOptional : Option Expr → Except Diagnostic (Option Expr)
  | none => .ok none
  | some e => do return some (← e.expandMacros)

def expandItems : List Expr → Except Diagnostic (List Expr)
  | [] => .ok []
  | e :: rest => do
    let e ← e.expandMacros
    return e :: (← expandItems rest)

def expandEntries : List (Expr × Expr) → Except Diagnostic (List (Expr × Expr))
  | [] => .ok []
  | (key, value) :: rest => do
    let key ← key.expandMacros
    let value ← value.expandMacros
    return (key, value) :: (← expandEntries rest)

end

end Expr

end JsonTemplate
