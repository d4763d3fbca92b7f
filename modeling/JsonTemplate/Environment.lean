/-
What an expression may refer to: declared variables, functions and types of objects. A later
declaration of a name replaces the earlier one.
-/
import JsonTemplate.Function.Standard

namespace JsonTemplate

structure Environment where
  declared : Entries ValueType
  functions : Entries Function
  types : Entries ObjectType
  /-- Whether a name that stands for nothing is a fault of the expression. -/
  rejectUndeclared : Bool

namespace Environment

def empty : Environment := ⟨[], [], [], false⟩

def declare (env : Environment) (name : String) (type : ValueType) : Environment :=
  { env with declared := env.declared.insert name type }

def register (env : Environment) (f : Function) : Environment :=
  { env with functions := env.functions.insert f.signature.name f }

def registerAll (env : Environment) (functions : List Function) : Environment :=
  functions.foldl register env

/-- Makes the name of a type usable in expressions, where it stands for itself as a string. -/
def registerType (env : Environment) (type : ObjectType) : Environment :=
  { env with types := env.types.insert type.name type }

/-- The environment with the standard functions. -/
def standard : Environment := empty.registerAll Standard.functions

/-- The types of a call's values, receiver first. -/
def callTypes (receiver : Option Value) (args : List Value) : List String :=
  (receiver.toList ++ args).map Value.typeName

/-- Runs a function if there is one of that name and it accepts the values. -/
def call (env : Environment) (name : String) (origin : Origin) (receiver : Option Value)
    (args : List Value) : Outcome Value :=
  match env.functions.get? name with
  | some f =>
    if f.signature.accepts receiver args then f.call origin receiver args
    else .raise (.noSuchOverload name (callTypes receiver args))
  | none => .raise (.noSuchOverload name (callTypes receiver args))

end Environment

end JsonTemplate
