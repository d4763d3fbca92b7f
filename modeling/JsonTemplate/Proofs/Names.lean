/-
The names an expression asks for: those that occur free in it (`free`) and those of the functions
it calls (`calls`). Evaluation asks for nothing else (`eval_congr`): settings that agree on these
names give the same outcome.
-/
import JsonTemplate.Eval.Basic

namespace JsonTemplate

namespace Expr

mutual

/-- The names that occur in an expression and are not bound by a loop around them. -/
def free : Expr → List String
  | literal _ _ => []
  | list _ items => freeItems items
  | dict _ entries => freeEntries entries
  | ident _ name => [name]
  | select _ operand _ => operand.free
  | index _ operand i => operand.free ++ i.free
  | call _ target _ args => freeOptional target ++ freeItems args
  | has _ operand _ => operand.free
  | quantify _ _ range name test => range.free ++ test.free.filter (· ≠ name)
  | collect _ range name test image =>
    range.free ++ (freeOptional test ++ image.free).filter (· ≠ name)
  | conditional _ condition yes no => condition.free ++ yes.free ++ no.free
  | binary _ _ left right => left.free ++ right.free
  | unary _ _ operand => operand.free

def freeOptional : Option Expr → List String
  | none => []
  | some e => e.free

def freeItems : List Expr → List String
  | [] => []
  | e :: rest => e.free ++ freeItems rest

def freeEntries : List (Expr × Expr) → List String
  | [] => []
  | (key, e) :: rest => key.free ++ e.free ++ freeEntries rest

end

mutual

/-- The names of the functions that an expression calls, in whatever branch. -/
def calls : Expr → List String
  | literal _ _ => []
  | list _ items => callsOfItems items
  | dict _ entries => callsOfEntries entries
  | ident _ _ => []
  | select _ operand _ => operand.calls
  | index _ operand i => operand.calls ++ i.calls
  | call _ target function args => callsOfOptional target ++ callsOfItems args ++ [function]
  | has _ operand _ => operand.calls
  | quantify _ _ range _ test => range.calls ++ test.calls
  | collect _ range _ test image => range.calls ++ callsOfOptional test ++ image.calls
  | conditional _ condition yes no => condition.calls ++ yes.calls ++ no.calls
  | binary _ _ left right => left.calls ++ right.calls
  | unary _ _ operand => operand.calls

def callsOfOptional : Option Expr → List String
  | none => []
  | some e => e.calls

def callsOfItems : List Expr → List String
  | [] => []
  | e :: rest => e.calls ++ callsOfItems rest

def callsOfEntries : List (Expr × Expr) → List String
  | [] => []
  | (key, e) :: rest => key.calls ++ e.calls ++ callsOfEntries rest

end

/-! ## Settings that agree -/

/-- Two environments with their contexts in which the given functions and names are the same.
Calls are compared at places related by `S`, which goes on to the places below. -/
structure Alike (S : Origin → Origin → Prop) (env env' : Environment) (context context' : Context)
    (calls free : List String) : Prop where
  child : ∀ a b part, S a b → S (a.child part) (b.child part)
  call : ∀ name ∈ calls, ∀ a b, S a b → ∀ receiver args,
    env.call name a receiver args = env'.call name b receiver args
  name : ∀ x ∈ free, context x = context' x

section Congruence

variable {S : Origin → Origin → Prop} {env env' : Environment} {context context' : Context}

theorem Alike.mono {calls calls' free free' : List String}
    (h : Alike S env env' context context' calls free) (hcalls : calls' ⊆ calls)
    (hfree : free' ⊆ free) : Alike S env env' context context' calls' free' :=
  ⟨h.child, fun name hmem => h.call name (hcalls hmem), fun x hmem => h.name x (hfree hmem)⟩

theorem Alike.bind {calls free : List String} {name : String}
    (h : Alike S env env' context context' calls (free.filter (· ≠ name))) (value : Value) :
    Alike S env env' (context.bind name value) (context'.bind name value) calls free := by
  refine ⟨h.child, h.call, fun x hmem => ?_⟩
  by_cases hx : x = name
  · simp [Context.bind, hx]
  · simp only [Context.bind, if_neg hx]
    exact h.name x (by simp [hmem, hx])

mutual

/-- Evaluation asks for free names and for called functions, and for nothing else. -/
theorem eval_congr : ∀ (e : Expr) {a b : Origin} {context context' : Context}, S a b →
    Alike S env env' context context' e.calls e.free →
    e.eval env a context = e.eval env' b context'
  | literal _ _, _, _, _, _, _, _ => rfl
  | list _ items, _, _, _, _, hab, h => by
    rw [eval, eval, evalItems_congr items hab 0 h]
  | dict _ entries, _, _, _, _, hab, h => by
    rw [eval, eval, evalEntries_congr entries hab 0 h]
  | ident _ name, _, _, _, _, _, h => by
    rw [eval, eval, Context.resolve, Context.resolve, h.name name (by simp [free])]
  | select _ operand _, _, _, _, _, hab, h => by
    rw [eval, eval, eval_congr operand (h.child _ _ 0 hab) h]
  | index _ operand i, _, _, _, _, hab, h => by
    rw [eval, eval,
      eval_congr operand (h.child _ _ 0 hab) (h.mono (by simp [calls]) (by simp [free])),
      eval_congr i (h.child _ _ 1 hab) (h.mono (by simp [calls]) (by simp [free]))]
  | call _ target function args, a, b, _, _, hab, h => by
    have hcall : env.call function (a.child 1) = env'.call function (b.child 1) := by
      funext receiver args
      exact h.call function (by simp [calls]) _ _ (h.child _ _ 1 hab) receiver args
    rw [eval, eval, hcall,
      evalOptional_congr target (h.child _ _ 0 hab) (h.mono (by simp [calls]) (by simp [free])),
      evalItems_congr args hab 2 (h.mono (by simp [calls]) (by simp [free]))]
  | has _ operand _, _, _, _, _, hab, h => by
    rw [eval, eval, eval_congr operand (h.child _ _ 0 hab) h]
  | quantify span q range name test, a, b, context, context', hab, h => by
    have htest : (fun number item => (test.eval env (a.child (number + 1))
        (context.bind name item)).condition test.span) =
        fun number item => (test.eval env' (b.child (number + 1))
          (context'.bind name item)).condition test.span := by
      funext number item
      rw [eval_congr test (h.child _ _ _ hab)
        ((h.mono (by simp [calls]) (by simp [free])).bind item)]
    rw [eval, eval, htest,
      eval_congr range (h.child _ _ 0 hab) (h.mono (by simp [calls]) (by simp [free]))]
  | collect span range name test image, a, b, context, context', hab, h => by
    have htest : (fun number item => evalTest env test (a.child (2 * number + 1))
        (context.bind name item)) =
        fun number item => evalTest env' test (b.child (2 * number + 1))
          (context'.bind name item) := by
      funext number item
      exact evalTest_congr test (h.child _ _ _ hab)
        ((h.mono (by simp [calls]) (by simp [free])).bind item)
    have himage : (fun number item => image.eval env (a.child (2 * number + 2))
        (context.bind name item)) =
        fun number item => image.eval env' (b.child (2 * number + 2))
          (context'.bind name item) := by
      funext number item
      exact eval_congr image (h.child _ _ _ hab)
        ((h.mono (by simp [calls]) (by simp [free])).bind item)
    rw [eval, eval, htest, himage,
      eval_congr range (h.child _ _ 0 hab) (h.mono (by simp [calls]) (by simp [free]))]
  | conditional _ condition yes no, _, _, _, _, hab, h => by
    rw [eval, eval,
      eval_congr condition (h.child _ _ 0 hab) (h.mono (by simp [calls]) (by simp [free])),
      eval_congr yes (h.child _ _ 1 hab) (h.mono (by simp [calls]) (by simp [free])),
      eval_congr no (h.child _ _ 2 hab) (h.mono (by simp [calls]) (by simp [free]))]
  | binary _ _ left right, _, _, _, _, hab, h => by
    rw [eval, eval, eval_congr left (h.child _ _ 0 hab) (h.mono (by simp [calls]) (by simp [free])),
      eval_congr right (h.child _ _ 1 hab) (h.mono (by simp [calls]) (by simp [free]))]
  | unary _ _ operand, _, _, _, _, hab, h => by
    rw [eval, eval, eval_congr operand (h.child _ _ 0 hab) h]

theorem evalOptional_congr : ∀ (e : Option Expr) {a b : Origin} {context context' : Context},
    S a b → Alike S env env' context context' (callsOfOptional e) (freeOptional e) →
    evalOptional env e a context = evalOptional env' e b context'
  | none, _, _, _, _, _, _ => rfl
  | some e, _, _, _, _, hab, h => by
    rw [evalOptional, evalOptional, eval_congr e hab h]

theorem evalTest_congr : ∀ (e : Option Expr) {a b : Origin} {context context' : Context},
    S a b → Alike S env env' context context' (callsOfOptional e) (freeOptional e) →
    evalTest env e a context = evalTest env' e b context'
  | none, _, _, _, _, _, _ => rfl
  | some e, _, _, _, _, hab, h => by rw [evalTest, evalTest, eval_congr e hab h]

theorem evalItems_congr : ∀ (items : List Expr) {a b : Origin} {context context' : Context},
    S a b → ∀ part, Alike S env env' context context' (callsOfItems items) (freeItems items) →
    evalItems env items a part context = evalItems env' items b part context'
  | [], _, _, _, _, _, _, _ => rfl
  | e :: rest, _, _, _, _, hab, part, h => by
    rw [evalItems, evalItems,
      eval_congr e (h.child _ _ part hab) (h.mono (by simp [callsOfItems]) (by simp [freeItems])),
      evalItems_congr rest hab (part + 1)
        (h.mono (by simp [callsOfItems]) (by simp [freeItems]))]

theorem evalEntries_congr : ∀ (entries : List (Expr × Expr)) {a b : Origin}
    {context context' : Context}, S a b → ∀ part,
    Alike S env env' context context' (callsOfEntries entries) (freeEntries entries) →
    evalEntries env entries a part context = evalEntries env' entries b part context'
  | [], _, _, _, _, _, _, _ => rfl
  | (key, e) :: rest, _, _, _, _, hab, part, h => by
    rw [evalEntries, evalEntries,
      eval_congr key (h.child _ _ part hab)
        (h.mono (by simp [callsOfEntries]) (by simp [freeEntries])),
      eval_congr e (h.child _ _ (part + 1) hab)
        (h.mono (by simp [callsOfEntries]) (by simp [freeEntries])),
      evalEntries_congr rest hab (part + 2)
        (h.mono (by simp [callsOfEntries]) (by simp [freeEntries]))]

end

end Congruence

end Expr

end JsonTemplate
