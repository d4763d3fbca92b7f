/-
Why a template or a fragment cannot be compiled. `message` is one line; `diagnostic` shows every
fault of the expression at hand under its source.
-/
import JsonTemplate.Expr.Diagnostic

namespace JsonTemplate

inductive TemplateFault
  /-- The text is not JSON. -/
  | json (text : String)
  /-- The document is a scalar. -/
  | root (found : String)
  /-- The string at a place in the document is not an expression of the environment. -/
  | expression (path source : String) (faults : List Diagnostic)
  /-- A fragment has a fault of its own. -/
  | fragment (name : String) (fault : TemplateFault)
  deriving DecidableEq, Repr

namespace TemplateFault

section Texts

variable (wording : Wording)

def message : TemplateFault → String
  | json text => s!"invalid template JSON: {wording.json text}"
  | root found => s!"template root must be a JSON object or array, got {found}"
  | expression path _ faults =>
    let listed := "; ".intercalate (faults.map (Diagnostic.message wording))
    s!"cannot compile expression at {path}: {listed}"
  | fragment name fault =>
    let inner := fault.message
    "fragment \x60" ++ name ++ "\x60: " ++ inner

def diagnostic : TemplateFault → String
  | expression path source faults =>
    "\n".intercalate (faults.map fun d => d.render wording source (some path))
  | fragment name fault =>
    let inner := fault.diagnostic
    "in fragment \x60" ++ name ++ "\x60:\n" ++ inner
  | fault => fault.message wording

end Texts

end TemplateFault

end JsonTemplate
