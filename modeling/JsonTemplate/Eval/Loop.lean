/-
Loops over the items of a range. Each takes what is to be done with an item, which is also given
the number of the item. All but `decide` stop at the first interrupt.
-/
import JsonTemplate.Value.Basic

namespace JsonTemplate

namespace Loop

/-- A step on the item of a number. -/
abbrev Step (α : Type) := Nat → Value → Outcome α

/-- The items that pass. -/
def filter (test : Step Bool) (number : Nat) : List Value → Outcome (List Value)
  | [] => .ok []
  | item :: rest => do
    let keep ← test number item
    let others ← filter test (number + 1) rest
    return if keep then item :: others else others

/-- The images of the items that pass. -/
def collect (test : Step Bool) (image : Step Value) (number : Nat) :
    List Value → Outcome (List Value)
  | [] => .ok []
  | item :: rest => do
    if ← test number item then
      let first ← image number item
      return first :: (← collect test image (number + 1) rest)
    else collect test image (number + 1) rest

/-- How many items pass. -/
def count (test : Step Bool) (number : Nat) : List Value → Outcome Nat
  | [] => .ok 0
  | item :: rest => do
    let keep ← test number item
    let others ← count test (number + 1) rest
    return if keep then others + 1 else others

/-- Looks for an item whose test gives `decisive`. A failed test only counts if there is none,
and then the first of them does; a removal ends the loop. -/
def decide (decisive : Bool) (test : Step Bool) (number : Nat) :
    List Value → Outcome Bool
  | [] => .ok !decisive
  | item :: rest =>
    match test number item with
    | .ok b => if b = decisive then .ok decisive else decide decisive test (number + 1) rest
    | .error .removed => .error .removed
    | .error (.failed failure) =>
      match decide decisive test (number + 1) rest with
      | .ok b => if b = decisive then .ok decisive else .error (.failed failure)
      | .error .removed => .error .removed
      | .error (.failed _) => .error (.failed failure)

end Loop

/-- A loop with a test, over the items of its range. -/
def Quantifier.run (q : Quantifier) (test : Loop.Step Bool) (items : List Value) :
    Outcome Value :=
  match q with
  | .filter => do return .list (← Loop.filter test 0 items)
  | .all => do return .bool (← Loop.decide false test 0 items)
  | .any => do return .bool (← Loop.decide true test 0 items)
  | .one => do return .bool ((← Loop.count test 0 items) == 1)

end JsonTemplate
