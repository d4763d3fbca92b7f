/-
Functions and the calls they take. A signature lists overloads; each is for calls on a receiver
or for calls without one, with parameters by position. A signature without overloads takes every
call. `accepts` decides on the values of a call, before the function is run.
-/
import JsonTemplate.Value.Basic

namespace JsonTemplate

/-- A type of values, as declarations name it. -/
inductive ValueType
  | string
  | number
  | bool
  | list
  | map
  | object
  | null
  | any
  deriving DecidableEq, Repr

def ValueType.matches : ValueType → Value → Bool
  | .any, _ => true
  | .string, .string _ => true
  | .number, .number _ => true
  | .bool, .bool _ => true
  | .list, .list _ => true
  | .map, .map _ => true
  | .object, .record _ _ => true
  | .object, .host .. => true
  | .null, .null => true
  | _, _ => false

structure Parameter where
  name : String
  type : ValueType
  required : Bool
  deriving DecidableEq, Repr

/-- One form of call: on a receiver of a type, or global if there is none. -/
structure Overload where
  receiver : Option ValueType
  parameters : List Parameter
  deriving DecidableEq, Repr

namespace Overload

/-- The number of parameters that must be given. -/
def required (o : Overload) : Nat := o.parameters.countP (·.required)

/-- Whether the style and the number of arguments fit. -/
def takes (o : Overload) (onReceiver : Bool) (arguments : Nat) : Bool :=
  onReceiver == o.receiver.isSome && o.required ≤ arguments
    && arguments ≤ o.parameters.length

def acceptsReceiver (o : Overload) : Option Value → Bool
  | none => true
  | some v => match o.receiver with
    | none => true
    | some type => type.matches v

def accepts (o : Overload) (receiver : Option Value) (args : List Value) : Bool :=
  o.takes receiver.isSome args.length && o.acceptsReceiver receiver
    && (args.zip o.parameters).all fun (v, p) => p.type.matches v

end Overload

structure Signature where
  name : String
  overloads : List Overload
  deriving DecidableEq, Repr

/-- Whether the values of a call fit one of the overloads. -/
def Signature.accepts (s : Signature) (receiver : Option Value) (args : List Value) : Bool :=
  s.overloads.isEmpty || s.overloads.any fun o => o.accepts receiver args

/-- A function that expressions can call. It is given the place of the call, so that an object
made by it has an origin of its own. -/
structure Function where
  signature : Signature
  call : Origin → Option Value → List Value → Outcome Value

end JsonTemplate
