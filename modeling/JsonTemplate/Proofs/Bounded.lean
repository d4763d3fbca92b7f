/-
Evaluation and expansion with a bound. `Expr.step`, `Tree.step` and `FragmentCall.step` say what
one expression, one tree and one call of `fragment` do with what their parts give; the evaluation,
the expansion and the call are steps of themselves (`step_eq`). `evalWithin` and `expandWithin`
take such steps as long as no more than `bound` of them are under way inside one another, and cut
off what would go deeper. A bound cuts nothing off if it leaves room for the depth of an expression
or a tree and for what the calls in it need (`evalWithin_eq`, `expandWithin_eq`).
-/
import JsonTemplate.Proofs.Compilation
import JsonTemplate.Template.Basic

namespace JsonTemplate

/-! ## One step of an evaluation -/

namespace Expr

mutual

/-- How deep an expression is nested. -/
def depth : Expr → Nat
  | literal _ _ | ident _ _ => 1
  | list _ items => depthOfItems items + 1
  | dict _ entries => depthOfEntries entries + 1
  | select _ operand _ | has _ operand _ | unary _ _ operand => operand.depth + 1
  | index _ left right | binary _ _ left right => max left.depth right.depth + 1
  | call _ target _ args => max (depthOfOptional target) (depthOfItems args) + 1
  | quantify _ _ range _ test => max range.depth test.depth + 1
  | collect _ range _ test image => max range.depth (max (depthOfOptional test) image.depth) + 1
  | conditional _ condition yes no => max condition.depth (max yes.depth no.depth) + 1

def depthOfOptional : Option Expr → Nat
  | none => 0
  | some e => e.depth

def depthOfItems : List Expr → Nat
  | [] => 0
  | e :: rest => max e.depth (depthOfItems rest)

def depthOfEntries : List (Expr × Expr) → Nat
  | [] => 0
  | (key, e) :: rest => max key.depth (max e.depth (depthOfEntries rest))

end

theorem depth_pos (e : Expr) : 0 < e.depth := by
  cases e <;> simp [depth]

section Step

variable (go : Expr → Origin → Context → Outcome Value)
  (dispatch : String → Origin → Option Value → List Value → Outcome Value)

def stepOptional (e : Option Expr) (origin : Origin) (context : Context) :
    Outcome (Option Value) :=
  match e with
  | none => .ok none
  | some e => do return some (← go e origin context)

def stepTest (e : Option Expr) (origin : Origin) (context : Context) : Outcome Bool :=
  match e with
  | none => .ok true
  | some e => (go e origin context).condition e.span

def stepItems (items : List Expr) (origin : Origin) (part : Nat) (context : Context) :
    Outcome (List Value) :=
  match items with
  | [] => .ok []
  | e :: rest => do
    let value ← go e (origin.child part) context
    return value :: (← stepItems rest origin (part + 1) context)

def stepEntries (entries : List (Expr × Expr)) (origin : Origin) (part : Nat)
    (context : Context) : Outcome (List (String × Value)) :=
  match entries with
  | [] => .ok []
  | (k, e) :: rest => do
    let key ← .ofResult (← go k (origin.child part) context).mapKey
    let value ← go e (origin.child (part + 1)) context
    return (key, value) :: (← stepEntries rest origin (part + 2) context)

/-- What an expression does with the outcomes of its parts. -/
def step (e : Expr) (origin : Origin) (context : Context) : Outcome Value :=
  match e with
  | literal _ value => .ok (.ofLiteral value)
  | list span items => .located span do
    return .list (← stepItems go items origin 0 context)
  | dict span entries => .located span do
    return .ofMap (← stepEntries go entries origin 0 context)
  | ident span name => .located span (context.resolve name)
  | select span operand field => .located span do
    .ofResult ((← go operand (origin.child 0) context).select field)
  | index span operand i => .located span do
    let value ← go operand (origin.child 0) context
    .ofResult (value.index (← go i (origin.child 1) context))
  | call span target function args => .located span do
    let receiver ← stepOptional go target (origin.child 0) context
    let args ← stepItems go args origin 2 context
    dispatch function (origin.child 1) receiver args
  | has span operand field => .located span do
    let value ← go operand (origin.child 0) context
    return .bool (← .ofResult (value.hasField field))
  | quantify span quantifier source name test => .located span do
    let items ← (← go source (origin.child 0) context).range source.span
    quantifier.run (fun number item =>
      (go test (origin.child (number + 1)) (context.bind name item)).condition test.span) items
  | collect span source name test image => .located span do
    let items ← (← go source (origin.child 0) context).range source.span
    return .list (← Loop.collect
      (fun number item => stepTest go test (origin.child (2 * number + 1))
        (context.bind name item))
      (fun number item => go image (origin.child (2 * number + 2)) (context.bind name item))
      0 items)
  | conditional span test yes no => .located span do
    if ← (go test (origin.child 0) context).condition test.span then
      go yes (origin.child 1) context
    else go no (origin.child 2) context
  | binary span op left right => .located span
    (op.outcome left.span right.span (go left (origin.child 0) context)
      fun _ => go right (origin.child 1) context)
  | unary span op operand => .located span do
    op.apply (← go operand (origin.child 0) context)

end Step

section StepEq

variable {go : Expr → Origin → Context → Outcome Value} {env : Environment}

theorem stepOptional_eq {e : Option Expr}
    (h : ∀ part : Expr, part.depth ≤ depthOfOptional e → go part = part.eval env) :
    stepOptional go e = evalOptional env e := by
  funext origin context
  cases e with
  | none => rfl
  | some e => rw [stepOptional, evalOptional, h e (Nat.le_refl _)]

theorem stepTest_eq {e : Option Expr}
    (h : ∀ part : Expr, part.depth ≤ depthOfOptional e → go part = part.eval env) :
    stepTest go e = evalTest env e := by
  funext origin context
  cases e with
  | none => rfl
  | some e => rw [stepTest, evalTest, h e (Nat.le_refl _)]

theorem stepItems_eq : ∀ {items : List Expr},
    (∀ part : Expr, part.depth ≤ depthOfItems items → go part = part.eval env) →
    ∀ (origin : Origin) (part : Nat) (context : Context),
      stepItems go items origin part context = evalItems env items origin part context
  | [], _, _, _, _ => rfl
  | e :: rest, h, origin, part, context => by
    have hfirst := h e (by simp only [depthOfItems]; omega)
    have hrest : ∀ part : Expr, part.depth ≤ depthOfItems rest → go part = part.eval env :=
      fun part hpart => h part (by simp only [depthOfItems]; omega)
    rw [stepItems, evalItems, hfirst, stepItems_eq hrest]

theorem stepEntries_eq : ∀ {entries : List (Expr × Expr)},
    (∀ part : Expr, part.depth ≤ depthOfEntries entries → go part = part.eval env) →
    ∀ (origin : Origin) (part : Nat) (context : Context),
      stepEntries go entries origin part context = evalEntries env entries origin part context
  | [], _, _, _, _ => rfl
  | (key, e) :: rest, h, origin, part, context => by
    have hkey := h key (by simp only [depthOfEntries]; omega)
    have hvalue := h e (by simp only [depthOfEntries]; omega)
    have hrest : ∀ part : Expr, part.depth ≤ depthOfEntries rest → go part = part.eval env :=
      fun part hpart => h part (by simp only [depthOfEntries]; omega)
    rw [stepEntries, evalEntries, hkey, hvalue, stepEntries_eq hrest]

/-- A step is one of the evaluation if the parts are evaluated so. -/
theorem step_eq {e : Expr} (h : ∀ part : Expr, part.depth < e.depth → go part = part.eval env) :
    step go env.call e = e.eval env := by
  funext origin context
  cases e with
  | literal => rfl
  | ident => rfl
  | list span items =>
    have hitems : ∀ part : Expr, part.depth ≤ depthOfItems items → go part = part.eval env :=
      fun part hpart => h part (by simp only [depth]; omega)
    rw [step, eval, stepItems_eq hitems]
  | dict span entries =>
    have hentries : ∀ part : Expr, part.depth ≤ depthOfEntries entries → go part = part.eval env :=
      fun part hpart => h part (by simp only [depth]; omega)
    rw [step, eval, stepEntries_eq hentries]
  | select span operand field =>
    have hoperand := h operand (by simp only [depth]; omega)
    rw [step, eval, hoperand]
  | index span operand i =>
    have hoperand := h operand (by simp only [depth]; omega)
    have hindex := h i (by simp only [depth]; omega)
    rw [step, eval, hoperand, hindex]
  | call span target function args =>
    have htarget : ∀ part : Expr, part.depth ≤ depthOfOptional target → go part = part.eval env :=
      fun part hpart => h part (by simp only [depth]; omega)
    have hargs : ∀ part : Expr, part.depth ≤ depthOfItems args → go part = part.eval env :=
      fun part hpart => h part (by simp only [depth]; omega)
    rw [step, eval, stepOptional_eq htarget, stepItems_eq hargs]
  | has span operand field =>
    have hoperand := h operand (by simp only [depth]; omega)
    rw [step, eval, hoperand]
  | quantify span q range name test =>
    have hrange := h range (by simp only [depth]; omega)
    have htest := h test (by simp only [depth]; omega)
    rw [step, eval, hrange, htest]
  | collect span range name test image =>
    have hrange := h range (by simp only [depth]; omega)
    have htest : ∀ part : Expr, part.depth ≤ depthOfOptional test → go part = part.eval env :=
      fun part hpart => h part (by simp only [depth]; omega)
    have himage := h image (by simp only [depth]; omega)
    rw [step, eval, hrange, stepTest_eq htest, himage]
  | conditional span condition yes no =>
    have hcondition := h condition (by simp only [depth]; omega)
    have hyes := h yes (by simp only [depth]; omega)
    have hno := h no (by simp only [depth]; omega)
    rw [step, eval, hcondition, hyes, hno]
  | binary span op left right =>
    have hleft := h left (by simp only [depth]; omega)
    have hright := h right (by simp only [depth]; omega)
    rw [step, eval, hleft, hright]
  | unary span op operand =>
    have hoperand := h operand (by simp only [depth]; omega)
    rw [step, eval, hoperand]

end StepEq

end Expr

/-! ## One step of an expansion -/

namespace Tree

mutual

/-- How deep a tree and the expressions in it are nested. -/
def depth : Tree → Nat
  | literal _ => 1
  | expression program => program.expr.depth + 1
  | object entries => depthOfEntries entries + 1
  | list items => depthOfItems items + 1

def depthOfEntries : List (String × Tree) → Nat
  | [] => 0
  | (_, t) :: rest => max t.depth (depthOfEntries rest)

def depthOfItems : List Tree → Nat
  | [] => 0
  | t :: rest => max t.depth (depthOfItems rest)

end

theorem depth_pos (t : Tree) : 0 < t.depth := by
  cases t <;> simp [depth]

section Step

variable (policy : ErrorPolicy) (run : Program → Origin → Outcome Value)
  (go : Tree → Origin → Except Failure (Option Value))

def stepEntries (entries : List (String × Tree)) (origin : Origin) (part : Nat) :
    Except Failure (List (String × Value)) :=
  match entries with
  | [] => .ok []
  | (key, t) :: rest => do
    let first ← go t (origin.child part)
    let others ← stepEntries rest origin (part + 1)
    return match first with
      | some value => (key, value) :: others
      | none => others

def stepItems (items : List Tree) (origin : Origin) (part : Nat) : Except Failure (List Value) :=
  match items with
  | [] => .ok []
  | t :: rest => do
    let first ← go t (origin.child part)
    let others ← stepItems rest origin (part + 1)
    return match first with
      | some value => value :: others
      | none => others

/-- What a tree does with the outcomes of its parts. -/
def step (t : Tree) (origin : Origin) : Except Failure (Option Value) :=
  match t with
  | literal value => .ok (some value.toValue)
  | expression program => settle policy (run program origin)
  | object entries => do
    return some (.record origin (Entries.ofPairs (← stepEntries go entries origin 0)))
  | list items => do return some (.list (← stepItems go items origin 0))

end Step

section StepEq

variable {policy : ErrorPolicy} {context : Context} {run : Program → Origin → Outcome Value}
  {go : Tree → Origin → Except Failure (Option Value)} {R : Program → Prop}

theorem stepEntries_eq : ∀ (entries : List (String × Tree)) (origin : Origin) (part : Nat),
    (∀ t : Tree, t.depth ≤ depthOfEntries entries → ∀ place,
      (∀ leaf ∈ t.leaves place, R leaf.program) → go t place = t.expandNode policy context place) →
    (∀ leaf ∈ leavesOfEntries entries origin part, R leaf.program) →
    stepEntries go entries origin part = expandEntries policy context entries origin part
  | [], _, _, _, _ => rfl
  | (key, t) :: rest, origin, part, h, hleaves => by
    have hfirst := h t (by simp only [depthOfEntries]; omega) (origin.child part)
      fun leaf hmem => hleaves leaf (List.mem_append_left _ hmem)
    have hrest := stepEntries_eq rest origin (part + 1)
      (fun t ht => h t (by simp only [depthOfEntries]; omega))
      fun leaf hmem => hleaves leaf (List.mem_append_right _ hmem)
    rw [stepEntries, hfirst, hrest]
    rfl

theorem stepItems_eq : ∀ (items : List Tree) (origin : Origin) (part : Nat),
    (∀ t : Tree, t.depth ≤ depthOfItems items → ∀ place,
      (∀ leaf ∈ t.leaves place, R leaf.program) → go t place = t.expandNode policy context place) →
    (∀ leaf ∈ leavesOfItems items origin part, R leaf.program) →
    stepItems go items origin part = expandItems policy context items origin part
  | [], _, _, _, _ => rfl
  | t :: rest, origin, part, h, hleaves => by
    have hfirst := h t (by simp only [depthOfItems]; omega) (origin.child part)
      fun leaf hmem => hleaves leaf (List.mem_append_left _ hmem)
    have hrest := stepItems_eq rest origin (part + 1)
      (fun t ht => h t (by simp only [depthOfItems]; omega))
      fun leaf hmem => hleaves leaf (List.mem_append_right _ hmem)
    rw [stepItems, hfirst, hrest]
    rfl

/-- A step is one of the expansion if the programs and the parts are run so. -/
theorem step_eq {t : Tree} {origin : Origin}
    (hrun : ∀ p : Program, p.expr.depth < t.depth → R p → ∀ place,
      run p place = p.eval place context)
    (h : ∀ part : Tree, part.depth < t.depth → ∀ place,
      (∀ leaf ∈ part.leaves place, R leaf.program) →
        go part place = part.expandNode policy context place)
    (hleaves : ∀ leaf ∈ t.leaves origin, R leaf.program) :
    step policy run go t origin = t.expandNode policy context origin := by
  cases t with
  | literal => rfl
  | expression p =>
    have hp : R p := hleaves ⟨origin, p⟩ (List.mem_singleton.mpr rfl)
    rw [step, expandNode, hrun p (by simp only [depth]; omega) hp]
  | object entries =>
    have hentries := stepEntries_eq entries origin 0
      (fun part hpart => h part (by simp only [depth]; omega)) hleaves
    rw [step, expandNode, hentries]
  | list items =>
    have hitems := stepItems_eq items origin 0
      (fun part hpart => h part (by simp only [depth]; omega)) hleaves
    rw [step, expandNode, hitems]

end StepEq

end Tree

/-! ## One call of a fragment -/

namespace FragmentCall

section Step

variable (fragments : Fragments) (enter : Tree → Origin → List Value → Outcome Value)

def stepEach (tree : Tree) (origin : Origin) (args : List Value) (part : Nat) :
    List Value → Outcome (List Value)
  | [] => .ok []
  | item :: rest => do
    let first ← enter tree (origin.child part) (item :: args)
    return first :: (← stepEach tree origin args (part + 1) rest)

/-- A call of `fragment` that expands trees by `enter`. -/
def step (origin : Origin) (receiver : Option Value) (args : List Value) : Outcome Value :=
  match args with
  | [] => .raise (.unexpected "fragment name" "nothing")
  | .string name :: args =>
    match fragments.get? name with
    | none => .raise (.fragmentNotFound name)
    | some tree =>
      match receiver with
      | none => enter tree origin args
      | some (.list items) => do return .list (← stepEach enter tree origin args 0 items)
      | some other => .raise (.unexpected "list" other.typeName)
  | other :: _ => .raise (.unexpected "fragment name" other.typeName)

end Step

section StepEq

variable {fragments : Fragments} {base : Activation} {policy : ErrorPolicy}
  {enter : Tree → Origin → List Value → Outcome Value}

theorem stepEach_eq {tree : Tree} (h : enter tree = invoke base policy tree) (origin : Origin)
    (args : List Value) (part : Nat) (items : List Value) :
    stepEach enter tree origin args part items =
      invokeEach base policy tree origin args part items := by
  induction items generalizing part with
  | nil => rfl
  | cons item rest ih => rw [stepEach, invokeEach, h, ih]

/-- A step is a call of `fragment` if the fragments are expanded so. -/
theorem step_eq (h : ∀ name tree, fragments.get? name = some tree →
    enter tree = invoke base policy tree) :
    step fragments enter = call fragments base policy := by
  funext origin receiver args
  cases args with
  | nil => rfl
  | cons first args =>
    cases first with
    | string name =>
      simp only [step, call]
      cases htree : fragments.get? name with
      | none => rfl
      | some tree =>
        have henter := h name tree htree
        cases receiver with
        | none => simp only [henter]
        | some target =>
          cases target with
          | list items => simp only [stepEach_eq henter]
          | _ => rfl
    | _ => rfl

end StepEq

end FragmentCall

/-! ## Bounded runs -/

/-- The depth of the deepest of some fragments. -/
def Fragments.depth (fragments : Fragments) : Nat := Tree.depthOfEntries fragments

namespace Template

/-- The depth of the tree and that of the deepest fragment. -/
def depth (t : Template) : Nat := t.root.depth + t.fragments.depth

section Bounded

variable (cut : Outcome Value) (t : Template)

/-- A call in an environment, where the fragments that `fragment` finds are expanded by `enter`. -/
def dispatch (enter : Tree → Origin → List Value → Outcome Value) (env : Environment)
    (name : String) (origin : Origin) (receiver : Option Value) (args : List Value) :
    Outcome Value :=
  match env.functions.get? name with
  | some f =>
    if f.signature.accepts receiver args then
      if name = FragmentCall.functionName then
        FragmentCall.step t.fragments enter origin receiver args
      else f.call origin receiver args
    else .raise (.noSuchOverload name (Environment.callTypes receiver args))
  | none => .raise (.noSuchOverload name (Environment.callTypes receiver args))

/-- A fragment with its arguments, expanded by `expand`. -/
def enter (expand : Tree → Context → Origin → Except Failure (Option Value)) (tree : Tree)
    (origin : Origin) (args : List Value) : Outcome Value :=
  .ofResult do
    return (← expand tree (t.base.bind "args" (.list args)).context origin).getD .null

mutual

/-- The evaluation of an expression with a bound on the trees and expressions that are under way
inside one another. At the bound the outcome is `cut`. -/
def evalWithin : Nat → Environment → Expr → Origin → Context → Outcome Value
  | 0, _, _, _, _ => cut
  | bound + 1, env, e, origin, context =>
    Expr.step (evalWithin bound env) (t.dispatch (t.enter (expandWithin bound)) env) e origin
      context

/-- The expansion of a tree with such a bound. -/
def expandWithin : Nat → Tree → Context → Origin → Except Failure (Option Value)
  | 0, _, _, _ => Tree.settle t.policy cut
  | bound + 1, tree, context, origin =>
    Tree.step t.policy (fun p place => evalWithin bound p.environment p.expr place context)
      (fun part place => expandWithin bound part context place) tree origin

end

/-- The output for an input with such a bound. -/
def expandValueWithin (bound : Nat) (origin : Origin) (data : Value) : Except Failure Value := do
  return (← t.expandWithin cut bound t.root (t.base.bind "data" data).context origin).getD .null

end Bounded

section Calls

variable {t : Template} {env : Environment} {enter : Tree → Origin → List Value → Outcome Value}

theorem dispatch_of_none (h : env.functions.get? FragmentCall.functionName = none) :
    t.dispatch enter env = env.call := by
  funext name origin receiver args
  unfold dispatch Environment.call
  cases hf : env.functions.get? name with
  | none => rfl
  | some f =>
    have hname : name ≠ FragmentCall.functionName := by
      intro hname
      rw [← hname, hf] at h
      cases h
    simp only [if_neg hname]

theorem dispatch_of_own
    (h : env.functions.get? FragmentCall.functionName =
      some (FragmentCall.function t.fragments t.base t.policy))
    (henter : ∀ name tree, t.fragments.get? name = some tree →
      enter tree = FragmentCall.invoke t.base t.policy tree) :
    t.dispatch enter env = env.call := by
  funext name origin receiver args
  unfold dispatch Environment.call
  cases hf : env.functions.get? name with
  | none => rfl
  | some f =>
    by_cases hname : name = FragmentCall.functionName
    · rw [hname, h] at hf
      cases hf
      simp only [if_pos hname, FragmentCall.step_eq henter]
      rfl
    · simp only [if_neg hname]

end Calls

section Enough

variable (cut : Outcome Value) (t : Template)

/-- A bound of `reserve` is enough for what is called in an environment. -/
def Serves (reserve : Nat) (env : Environment) : Prop :=
  ∀ bound, reserve ≤ bound → t.dispatch (t.enter (t.expandWithin cut bound)) env = env.call

/-- A bound that leaves room for an expression, and for what its calls need, cuts nothing off. -/
theorem evalWithin_eq {env : Environment} {reserve : Nat} (hcalls : t.Serves cut reserve env) :
    ∀ (bound : Nat) (e : Expr), e.depth + reserve ≤ bound →
      t.evalWithin cut bound env e = e.eval env := by
  intro bound
  induction bound with
  | zero =>
    intro e h
    have hpos := e.depth_pos
    omega
  | succ bound ih =>
    intro e h
    have hpos := e.depth_pos
    have hparts : ∀ part : Expr, part.depth < e.depth →
        t.evalWithin cut bound env part = part.eval env :=
      fun part hpart => ih part (by omega)
    -- An expression is at least one deep, so what is left after this step covers the reserve.
    funext origin context
    rw [evalWithin, hcalls bound (by omega), Expr.step_eq hparts]

/-- The same for a tree, by what the calls in its programs need. -/
theorem expandWithin_eq (reserve : Nat) : ∀ (bound : Nat) (tree : Tree) (context : Context)
    (origin : Origin), tree.depth + reserve ≤ bound →
    (∀ leaf ∈ tree.leaves origin, t.Serves cut reserve leaf.program.environment) →
    t.expandWithin cut bound tree context origin = tree.expandNode t.policy context origin := by
  intro bound
  induction bound with
  | zero =>
    intro tree context origin h
    have hpos := tree.depth_pos
    omega
  | succ bound ih =>
    intro tree context origin h hleaves
    have hrun : ∀ p : Program, p.expr.depth < tree.depth → t.Serves cut reserve p.environment →
        ∀ place, t.evalWithin cut bound p.environment p.expr place context =
          p.eval place context := by
      intro p hp hcalls place
      rw [t.evalWithin_eq cut hcalls bound p.expr (by omega)]
      rfl
    rw [expandWithin]
    exact Tree.step_eq hrun (fun part hpart place hplace => ih part context place (by omega) hplace)
      hleaves

end Enough

end Template

end JsonTemplate
