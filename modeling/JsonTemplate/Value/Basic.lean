/-
Values. Besides data there are objects: records, which the engine makes, and host objects, which
are known by what they answer. An object has an origin, and two objects are equal only if they
are the same instance; what an object allows is advertised by the traits of its type.
-/
import JsonTemplate.Entries
import JsonTemplate.Failure
import JsonTemplate.Expr.Basic

namespace JsonTemplate

/-- Where an object was made. Every step of an evaluation that may make one has its own place,
so two objects have the same origin only if they are the same instance. -/
structure Origin where
  path : List Nat
  deriving DecidableEq, Repr, Inhabited

/-- The place of a part of a step. -/
def Origin.child (o : Origin) (part : Nat) : Origin := ⟨part :: o.path⟩

/-- What an object lets an expression do with it. -/
structure Traits where
  indexed : Bool
  iterable : Bool
  sized : Bool
  container : Bool
  deriving DecidableEq, Repr

structure ObjectType where
  name : String
  traits : Traits
  deriving DecidableEq, Repr

/-- The type of records; it allows everything. -/
def ObjectType.record : ObjectType := ⟨"OrderedObject", ⟨true, true, true, true⟩⟩

inductive Value
  | null
  | bool (value : Bool)
  | number (value : Binary64)
  | string (value : String)
  | list (items : List Value)
  | map (entries : List (String × Value))
  | record (origin : Origin) (entries : List (String × Value))
  | host (origin : Origin) (type : ObjectType) (get : String → Except Failure Value)
      (contains : String → Bool) (keys : List Value) (size : Nat)
  deriving Inhabited

/-- An object as its operations show it. -/
structure Face where
  origin : Origin
  type : ObjectType
  get : String → Except Failure Value
  contains : String → Bool
  keys : List Value
  size : Nat

/-- What a record shows: its entries. -/
def Face.ofEntries (origin : Origin) (entries : Entries Value) : Face where
  origin := origin
  type := .record
  get key := match entries.get? key with
    | some value => .ok value
    | none => .error (.of (.noSuchKey key))
  contains := entries.contains
  keys := entries.keys.map .string
  size := entries.length

namespace Value

def ofLiteral : Literal → Value
  | .null => null
  | .bool b => bool b
  | .number n => number n
  | .string s => string s

def ofNat (n : Nat) : Value := number (.ofNat n)

def ofMap (pairs : List (String × Value)) : Value := map (Entries.ofPairs pairs)

def face? : Value → Option Face
  | record origin entries => some (.ofEntries origin entries)
  | host origin type get contains keys size => some ⟨origin, type, get, contains, keys, size⟩
  | _ => none

def typeName : Value → String
  | null => "null"
  | bool _ => "bool"
  | number _ => "number"
  | string _ => "string"
  | list _ => "list"
  | map _ => "map"
  | record _ _ => ObjectType.record.name
  | host _ type _ _ _ _ => type.name

/-! ## Equality -/

mutual

/-- Lists are equal item by item, maps key by key in any order, numbers numerically, and
objects only if they are the same instance. -/
def equal : Value → Value → Bool
  | null, null => true
  | bool a, bool b => a == b
  | number a, number b => a.equal b
  | string a, string b => a == b
  | list a, list b => equalItems a b
  | map a, map b => a.length == b.length && equalEntries a b
  | record a _, record b _ => a == b
  | host a _ _ _ _ _, host b _ _ _ _ _ => a == b
  | _, _ => false

def equalItems : List Value → List Value → Bool
  | [], [] => true
  | a :: as, b :: bs => a.equal b && equalItems as bs
  | _, _ => false

/-- Every entry has an equal one under the same key. -/
def equalEntries : List (String × Value) → List (String × Value) → Bool
  | [], _ => true
  | (key, a) :: rest, others =>
    (match Entries.get? others key with
      | some b => a.equal b
      | none => false) && equalEntries rest others

end

/-! ## Text -/

mutual

/-- The text of a value for people: strings bare, objects by the name of their type. -/
def display : Value → String
  | null => "null"
  | bool b => if b then "true" else "false"
  | number n => n.display
  | string s => s
  | list items => "[" ++ ", ".intercalate (displayItems items) ++ "]"
  | map entries => "\x7b" ++ ", ".intercalate (displayEntries entries) ++ "\x7d"
  | record _ _ => ObjectType.record.name
  | host _ type _ _ _ _ => type.name

def displayItems : List Value → List String
  | [] => []
  | v :: rest => v.display :: displayItems rest

def displayEntries : List (String × Value) → List String
  | [] => []
  | (key, v) :: rest => (key ++ ": " ++ v.display) :: displayEntries rest

end

end Value

end JsonTemplate
