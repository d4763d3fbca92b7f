/-
Asking values for their parts: by field, by index, by membership and item by item. Maps and
objects are asked alike; an object answers only what its type allows.
-/
import JsonTemplate.Value.Basic

namespace JsonTemplate.Value

/-- The key a value stands for: a string, a whole number or a boolean, by its text. -/
def mapKey : Value → Except Failure String
  | string s => .ok s
  | number n =>
    if n.isWhole then .ok n.display else .error (.of (.unexpected "string key" "number"))
  | bool b => .ok (if b then "true" else "false")
  | other => .error (.of (.unexpected "string key" other.typeName))

def getKey (entries : Entries Value) (key : String) : Except Failure Value :=
  match entries.get? key with
  | some value => .ok value
  | none => .error (.of (.noSuchKey key))

/-- The face of an object whose type allows something. -/
def allowing? (allows : Traits → Bool) (value : Value) : Option Face :=
  value.face?.filter fun face => allows face.type.traits

def select (value : Value) (field : String) : Except Failure Value :=
  match value with
  | map entries => getKey entries field
  | other =>
    match other.allowing? Traits.indexed with
    | some face => face.get field
    | none => .error (.of (.unexpected "map or object" other.typeName))

/-- The item at a whole number inside the list. -/
def item (items : List Value) (index : Value) : Except Failure Value :=
  match index with
  | number n =>
    match n.toInt? with
    | none => .error (.of (.unexpected "integer index" n.display))
    | some i =>
      if i < 0 then .error (.of (.indexOutOfRange n items.length))
      else match items[i.toNat]? with
        | some value => .ok value
        | none => .error (.of (.indexOutOfRange n items.length))
  | other => .error (.of (.unexpected "number index" other.typeName))

def index (value index : Value) : Except Failure Value :=
  match value with
  | list items => item items index
  | map entries => do getKey entries (← index.mapKey)
  | other =>
    match other.allowing? Traits.indexed with
    | some face => do face.get (← index.mapKey)
    | none => .error (.of (.unexpected "list, map or object" other.typeName))

/-- Whether a field is there, without reading it. -/
def hasField (value : Value) (field : String) : Except Failure Bool :=
  match value with
  | map entries => .ok (Entries.contains entries field)
  | other =>
    match other.allowing? Traits.container with
    | some face => .ok (face.contains field)
    | none => .error (.of (.noSuchOverload "has" [other.typeName]))

/-- What a loop runs over: items of a list, keys of a map or an object. -/
def rangeItems (value : Value) : Except Failure (List Value) :=
  match value with
  | list items => .ok items
  | map entries => .ok ((Entries.keys entries).map string)
  | other =>
    match other.allowing? Traits.iterable with
    | some face => .ok face.keys
    | none => .error (.of (.unexpected "list, map or iterable object" other.typeName))

/-- Membership: an equal item of a list, a key of a map or an object. -/
def contains (container item : Value) : Except Failure Bool :=
  match container with
  | list items => .ok (items.any fun other => other.equal item)
  | map entries => do return Entries.contains entries (← item.mapKey)
  | other =>
    match other.allowing? Traits.container with
    | some face => do return face.contains (← item.mapKey)
    | none => .error (.of (.noSuchOverload "_in_" [item.typeName, other.typeName]))

end JsonTemplate.Value
