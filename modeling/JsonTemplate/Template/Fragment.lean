/-
Fragments: named templates that expressions expand by calling `fragment`. A fragment sees its
arguments as the list `args`. Called on a list the function expands the fragment once for every
item, which comes first among the arguments; the first failure ends the call.
-/
import JsonTemplate.Template.Expand

namespace JsonTemplate

/-- Compiled fragments by name. -/
abbrev Fragments := Entries Tree

namespace Fragments

/-- Compiles fragments in order; the first fault is reported with the fragment's name. -/
def compile (env : Environment) : List (String × String) → Except TemplateFault Fragments
  | [] => .ok []
  | (name, text) :: rest => do
    match Tree.compile env text with
    | .ok tree => return (name, tree) :: (← compile env rest)
    | .error fault => .error (.fragment name fault)

end Fragments

namespace FragmentCall

/-- The name of the function. -/
def functionName : String := "fragment"

/-- The most arguments that a call may give after the name. -/
def maxArguments : Nat := 5

def signature : Signature :=
  let parameters : List Parameter :=
    ⟨"name", .string, true⟩ ::
      (List.range maxArguments).map fun i => ⟨s!"arg{i + 1}", .any, false⟩
  ⟨functionName, [⟨none, parameters⟩, ⟨some .list, parameters⟩]⟩

section Call

variable (fragments : Fragments) (base : Activation) (policy : ErrorPolicy)

/-- Expands a fragment with its arguments. -/
def invoke (tree : Tree) (origin : Origin) (args : List Value) : Outcome Value :=
  .ofResult (tree.expand policy (base.bind "args" (.list args)).context origin)

/-- Expands a fragment for every item. -/
def invokeEach (tree : Tree) (origin : Origin) (args : List Value) (part : Nat) :
    List Value → Outcome (List Value)
  | [] => .ok []
  | item :: rest => do
    let first ← invoke base policy tree (origin.child part) (item :: args)
    return first :: (← invokeEach tree origin args (part + 1) rest)

def call (origin : Origin) (receiver : Option Value) (args : List Value) :
    Outcome Value :=
  match args with
  | [] => .raise (.unexpected "fragment name" "nothing")
  | .string name :: args =>
    match fragments.get? name with
    | none => .raise (.fragmentNotFound name)
    | some tree =>
      match receiver with
      | none => invoke base policy tree origin args
      | some (.list items) => do
        return .list (← invokeEach base policy tree origin args 0 items)
      | some other => .raise (.unexpected "list" other.typeName)
  | other :: _ => .raise (.unexpected "fragment name" other.typeName)

/-- The function `fragment` over compiled fragments; `base` is what every fragment sees. -/
def function : Function := ⟨signature, call fragments base policy⟩

end Call

end FragmentCall

end JsonTemplate
