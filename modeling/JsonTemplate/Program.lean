/-
Programs: expressions that have passed the checks of an environment, with the source they were
read from. Evaluation carries nothing from one run to the next.
-/
import JsonTemplate.Expr.Reader
import JsonTemplate.Check
import JsonTemplate.Eval.Basic

namespace JsonTemplate

structure Program where
  expr : Expr
  source : String
  environment : Environment

namespace Program

/-- Evaluates the expression; objects made on the way get origins below `origin`. -/
def eval (p : Program) (origin : Origin) (context : Context) : Outcome Value :=
  p.expr.eval p.environment origin context

/-- The part of the source that a failure points at. -/
def excerpt (p : Program) (failure : Failure) : Option String :=
  failure.span.bind (Text.slice? p.source)

end Program

/-- Reads and checks an expression. -/
def Environment.compile (env : Environment) (source : String) :
    Except (List Diagnostic) Program :=
  match Expr.parse source with
  | .error d => .error [d]
  | .ok parsed =>
    let expr := parsed.resolveTypes env []
    match expr.faults env [] with
    | [] => .ok ⟨expr, source, env⟩
    | found => .error found

end JsonTemplate
