/-
Expansion. Each expression of a tree gives a value, or its entry is left out: when it is removed
and when it fails in a way that the policy does not raise. A container is never left out.
-/
import JsonTemplate.Template.Tree

namespace JsonTemplate

/-- Whether a failure means that a key is not there: by its kind, or by its message, for hosts
that only say so. -/
def Failure.isMissingKey (f : Failure) : Bool :=
  f.kind == .noSuchKey || Text.occursIn "no such key".toList f.message.toList

/-- Which failures end an expansion. -/
structure ErrorPolicy where
  missingKeys : Bool
  all : Bool
  deriving DecidableEq, Repr

def ErrorPolicy.raises (policy : ErrorPolicy) (f : Failure) : Bool :=
  policy.all || (policy.missingKeys && f.isMissingKey)

namespace Tree

/-- What an expression adds to the output. -/
def settle (policy : ErrorPolicy) : Outcome Value → Except Failure (Option Value)
  | .ok value => .ok (some value)
  | .error .removed => .ok none
  | .error (.failed f) => if policy.raises f then .error f else .ok none

section Expand

variable (policy : ErrorPolicy) (context : Context)

mutual

/-- The output of a tree, nothing if it is left out. Records get the origin of their place. -/
def expandNode (t : Tree) (origin : Origin) : Except Failure (Option Value) :=
  match t with
  | literal value => .ok (some value.toValue)
  | expression program => settle policy (program.eval origin context)
  | object entries => do
    return some (.record origin (Entries.ofPairs (← expandEntries entries origin 0)))
  | list items => do return some (.list (← expandItems items origin 0))

def expandEntries (entries : List (String × Tree)) (origin : Origin) (part : Nat) :
    Except Failure (List (String × Value)) :=
  match entries with
  | [] => .ok []
  | (key, t) :: rest => do
    let first ← t.expandNode (origin.child part)
    let others ← expandEntries rest origin (part + 1)
    return match first with
      | some value => (key, value) :: others
      | none => others

def expandItems (items : List Tree) (origin : Origin) (part : Nat) :
    Except Failure (List Value) :=
  match items with
  | [] => .ok []
  | t :: rest => do
    let first ← t.expandNode (origin.child part)
    let others ← expandItems rest origin (part + 1)
    return match first with
      | some value => value :: others
      | none => others

end

end Expand

/-- The output of a whole tree; one that is left out gives null. -/
def expand (policy : ErrorPolicy) (context : Context) (t : Tree) (origin : Origin) :
    Except Failure Value := do
  return (← t.expandNode policy context origin).getD .null

end Tree

end JsonTemplate
