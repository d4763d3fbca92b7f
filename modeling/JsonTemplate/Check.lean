/-
Checking an expression against an environment before it is evaluated. First each free name of a
registered type becomes a string literal (`resolveTypes`); then every call and, if undeclared
names are rejected, every name is looked at, operands before the call that uses them (`faults`).
An operand that is not a literal may have any type.
-/
import JsonTemplate.Environment
import JsonTemplate.Expr.Diagnostic

namespace JsonTemplate

/-! ## Calls -/

/-- Whether a value of a type may stand where an operand is, as far as that is known. -/
def ValueType.mayMatch (type : ValueType) : Option Literal → Bool
  | none => true
  | some known => type.matches (.ofLiteral known)

namespace Overload

def mayAcceptTarget (o : Overload) : Option (Option Literal) → Bool
  | none => true
  | some known => match o.receiver with
    | none => true
    | some type => type.mayMatch known

/-- Whether a call may be accepted, from the literals among its operands. -/
def mayAccept (o : Overload) (target : Option (Option Literal)) (args : List (Option Literal)) :
    Bool :=
  o.takes target.isSome args.length && o.mayAcceptTarget target
    && (args.zip o.parameters).all fun (known, p) => p.type.mayMatch known

end Overload

def Signature.mayAccept (s : Signature) (target : Option (Option Literal))
    (args : List (Option Literal)) : Bool :=
  s.overloads.isEmpty || s.overloads.any fun o => o.mayAccept target args

namespace Expr

/-- The type of an operand in messages. -/
def describe (e : Expr) : String :=
  match e.literal? with
  | some known => (Value.ofLiteral known).typeName
  | none => "dyn"

/-- The fault of a call apart from those of its operands. -/
def callFaults (env : Environment) (span : Span) (target : Option Expr) (function : String)
    (args : List Expr) : List Diagnostic :=
  match env.functions.get? function with
  | none => [⟨span, .undeclaredFunction function⟩]
  | some f =>
    if f.signature.mayAccept (target.map literal?) (args.map literal?) then []
    else
      let shape := match target with
        | some t => t.describe ++ "." ++ function
        | none => function
      [⟨span, .noOverload shape (args.map describe)⟩]

/-! ## Names of types -/

/-- What a name becomes where the names in `bound` belong to loops. -/
def resolveName (env : Environment) (bound : List String) (span : Span) (name : String) : Expr :=
  if bound.contains name || env.declared.contains name then ident span name
  else match env.types.get? name with
    | some type => literal span (.string type.name)
    | none => ident span name

section ResolveTypes

variable (env : Environment)

mutual

def resolveTypes (bound : List String) : Expr → Expr
  | literal span value => literal span value
  | list span items => list span (resolveItems bound items)
  | dict span entries => dict span (resolveEntries bound entries)
  | ident span name => resolveName env bound span name
  | select span operand field => select span (resolveTypes bound operand) field
  | index span operand i => index span (resolveTypes bound operand) (resolveTypes bound i)
  | call span target function args =>
    call span (resolveOptional bound target) function (resolveItems bound args)
  | has span operand field => has span (resolveTypes bound operand) field
  | quantify span q range name test =>
    quantify span q (resolveTypes bound range) name (resolveTypes (name :: bound) test)
  | collect span range name test image =>
    collect span (resolveTypes bound range) name (resolveOptional (name :: bound) test)
      (resolveTypes (name :: bound) image)
  | conditional span condition yes no =>
    conditional span (resolveTypes bound condition) (resolveTypes bound yes)
      (resolveTypes bound no)
  | binary span op left right =>
    binary span op (resolveTypes bound left) (resolveTypes bound right)
  | unary span op operand => unary span op (resolveTypes bound operand)

def resolveOptional (bound : List String) : Option Expr → Option Expr
  | none => none
  | some e => some (resolveTypes bound e)

def resolveItems (bound : List String) : List Expr → List Expr
  | [] => []
  | e :: rest => resolveTypes bound e :: resolveItems bound rest

def resolveEntries (bound : List String) : List (Expr × Expr) → List (Expr × Expr)
  | [] => []
  | (key, e) :: rest =>
    (resolveTypes bound key, resolveTypes bound e) :: resolveEntries bound rest

end

end ResolveTypes

/-! ## Faults -/

/-- The fault of a name that stands for nothing. -/
def nameFaults (env : Environment) (bound : List String) (span : Span) (name : String) :
    List Diagnostic :=
  if bound.contains name || env.declared.contains name || !env.rejectUndeclared then []
  else [⟨span, .undeclaredName name⟩]

section Faults

variable (env : Environment)

mutual

/-- The faults of an expression in which the names of types are resolved. -/
def faults (bound : List String) : Expr → List Diagnostic
  | literal _ _ => []
  | list _ items => faultsOfItems bound items
  | dict _ entries => faultsOfEntries bound entries
  | ident span name => nameFaults env bound span name
  | select _ operand _ => faults bound operand
  | index _ operand i => faults bound operand ++ faults bound i
  | call span target function args =>
    faultsOfOptional bound target ++ faultsOfItems bound args
      ++ callFaults env span target function args
  | has _ operand _ => faults bound operand
  | quantify _ _ range name test => faults bound range ++ faults (name :: bound) test
  | collect _ range name test image =>
    faults bound range ++ faultsOfOptional (name :: bound) test ++ faults (name :: bound) image
  | conditional _ condition yes no =>
    faults bound condition ++ faults bound yes ++ faults bound no
  | binary _ _ left right => faults bound left ++ faults bound right
  | unary _ _ operand => faults bound operand

def faultsOfOptional (bound : List String) : Option Expr → List Diagnostic
  | none => []
  | some e => faults bound e

def faultsOfItems (bound : List String) : List Expr → List Diagnostic
  | [] => []
  | e :: rest => faults bound e ++ faultsOfItems bound rest

def faultsOfEntries (bound : List String) : List (Expr × Expr) → List Diagnostic
  | [] => []
  | (key, e) :: rest => faults bound key ++ faults bound e ++ faultsOfEntries bound rest

end

end Faults

end Expr

end JsonTemplate
