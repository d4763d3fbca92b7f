/-
Evaluation with a stack of scopes. A loop pushes a table of names, gives its variable a value in it
for one item after the other and pops it in the end, whatever stopped it; what an evaluation did to
the stack stands even if a failure of it is absorbed. Still every evaluation leaves the stack as it
was and has the outcome that `Expr.eval` has in the context the stack makes (`run_eq`). With the
renaming of a loop's variable this is what makes variables lexical (`loop_variables_are_lexical`).
-/
import JsonTemplate.Proofs.Binding

namespace JsonTemplate

/-- The tables of the loops that are being run, the innermost first. -/
abbrev Scopes := List (Entries Value)

namespace Scopes

/-- The value of a name in the innermost table that has it. -/
def get? : Scopes → String → Option Value
  | [], _ => none
  | frame :: rest, name => (frame.get? name).or (get? rest name)

/-- Yields a name a value in the innermost table. -/
def bind (name : String) (value : Value) : Scopes → Scopes
  | [] => []
  | frame :: rest => frame.insert name value :: rest

/-- The context that the tables make, over that of the program. -/
def onto (scopes : Scopes) (context : Context) : Context := fun name =>
  (scopes.get? name).or (context name)

/-- In a table that has no other name, a new value hides what the name stood for. -/
theorem onto_bind {frame : Entries Value} {name : String}
    (h : ∀ other, other ≠ name → frame.get? other = none) (scopes : Scopes) (context : Context)
    (value : Value) :
    onto (bind name value (frame :: scopes)) context = (onto scopes context).bind name value := by
  funext other
  by_cases hother : other = name
  · simp [onto, bind, get?, Context.bind, hother, Entries.get?_insert_self]
  · simp [onto, bind, get?, Context.bind, hother, Entries.get?_insert_of_ne, h]

end Scopes

/-- An evaluation that reads and changes the scopes, whether or not it gives a value. -/
abbrev Scoped := ExceptT Interrupt (StateM Scopes)

namespace Scoped

/-- The outcome from the given scopes, and the scopes it leaves. -/
def runFrom (x : Scoped α) (scopes : Scopes) : Outcome α × Scopes := x.run.run scopes

def ofOutcome (r : Outcome α) : Scoped α := ExceptT.mk (pure r)

/-- The outcome itself, so that an interrupt does not go on. -/
def attempt (x : Scoped α) : Scoped (Outcome α) := ExceptT.lift x.run

def located (span : Span) (x : Scoped α) : Scoped α := do
  ofOutcome (.located span (← x.attempt))

def condition (span : Span) (x : Scoped Value) : Scoped Bool := do
  ofOutcome (.condition span (← x.attempt))

def resolve (context : Context) (name : String) : Scoped Value := do
  ofOutcome (((← get).onto context).resolve name)

/-- Runs a loop in a table of its own. -/
def inScope (x : Scoped α) : Scoped α := do
  modify ([] :: ·)
  let r ← x.attempt
  -- The table goes, however the loop has ended.
  modify List.tail
  ofOutcome r

/-- The step of a loop whose variable takes the item as its value. -/
def step (name : String) (x : Nat → Scoped α) (number : Nat) (item : Value) : Scoped α := do
  modify (Scopes.bind name item)
  x number

/-! ## Operators and loops -/

def logical (decisive : Bool) (left right : Scoped Bool) : Scoped Bool := do
  match ← left.attempt with
  | .ok a =>
    if a = decisive then return decisive
    match ← right.attempt with
    | .ok b => return if b = decisive then decisive else !decisive
    | .error i => throw i
  | .error i =>
    match ← right.attempt with
    | .ok b => if b = decisive then return decisive else throw i
    | .error _ => throw i

def binary (op : BinaryOp) (leftSpan rightSpan : Span) (left right : Scoped Value) :
    Scoped Value :=
  match op.decisive? with
  | some decisive => do
    return .bool (← logical decisive (left.condition leftSpan) (right.condition rightSpan))
  | none => do
    let a ← left
    let b ← right
    ofOutcome (op.apply a b)

def filter (test : Nat → Value → Scoped Bool) (number : Nat) :
    List Value → Scoped (List Value)
  | [] => return []
  | item :: rest => do
    let keep ← test number item
    let others ← filter test (number + 1) rest
    return if keep then item :: others else others

/-- The images that there are. -/
def collect (image : Nat → Value → Scoped (Option Value)) (number : Nat) :
    List Value → Scoped (List Value)
  | [] => return []
  | item :: rest => do
    match ← image number item with
    | some first => return first :: (← collect image (number + 1) rest)
    | none => collect image (number + 1) rest

def count (test : Nat → Value → Scoped Bool) (number : Nat) : List Value → Scoped Nat
  | [] => return 0
  | item :: rest => do
    let keep ← test number item
    let others ← count test (number + 1) rest
    return if keep then others + 1 else others

def decide (decisive : Bool) (test : Nat → Value → Scoped Bool) (number : Nat) :
    List Value → Scoped Bool
  | [] => return !decisive
  | item :: rest => do
    match ← (test number item).attempt with
    | .ok b => if b = decisive then return decisive else decide decisive test (number + 1) rest
    | .error .removed => throw .removed
    | .error (.failed failure) =>
      match ← (decide decisive test (number + 1) rest).attempt with
      | .ok b => if b = decisive then return decisive else throw (.failed failure)
      | .error .removed => throw .removed
      | .error (.failed _) => throw (.failed failure)

def quantify (q : Quantifier) (test : Nat → Value → Scoped Bool) (items : List Value) :
    Scoped Value :=
  match q with
  | .filter => do return .list (← filter test 0 items)
  | .all => do return .bool (← decide false test 0 items)
  | .any => do return .bool (← decide true test 0 items)
  | .one => do return .bool ((← count test 0 items) == 1)

/-! ## What an evaluation gives -/

/-- From scopes that satisfy `I` it has the outcome and leaves scopes that satisfy `I`. -/
def Yields (I : Scopes → Prop) (x : Scoped α) (r : Outcome α) : Prop :=
  ∀ scopes, I scopes → ∃ after, x.runFrom scopes = (r, after) ∧ I after

section Yields

variable {α β : Type} {I : Scopes → Prop}

theorem runFrom_bind (x : Scoped α) (f : α → Scoped β) (scopes : Scopes) :
    (x >>= f).runFrom scopes = match x.runFrom scopes with
      | (.ok a, after) => (f a).runFrom after
      | (.error i, after) => (.error i, after) := by
  have h : (x >>= f).runFrom scopes =
      ((ExceptT.bindCont f (x.runFrom scopes).1).run (x.runFrom scopes).2 : Outcome β × Scopes) :=
    rfl
  rw [h]
  rcases x.runFrom scopes with ⟨_ | _, after⟩ <;> rfl

theorem yields_ofOutcome (r : Outcome α) : Yields I (ofOutcome r) r := fun scopes h =>
  ⟨scopes, rfl, h⟩

theorem yields_pure (a : α) : Yields I (pure a) (.ok a) := yields_ofOutcome (.ok a)

theorem yields_throw (i : Interrupt) : Yields I (throw i : Scoped α) (.error i) :=
  yields_ofOutcome (.error i)

theorem Yields.attempt {x : Scoped α} {r : Outcome α} (h : Yields I x r) :
    Yields I x.attempt (.ok r) := by
  intro scopes hI
  obtain ⟨after, hrun, hafter⟩ := h scopes hI
  refine ⟨after, ?_, hafter⟩
  have hattempt : x.attempt.runFrom scopes = (.ok (x.runFrom scopes).1, (x.runFrom scopes).2) := rfl
  rw [hattempt, hrun]

theorem Yields.bind {x : Scoped α} {f : α → Scoped β} {r : Outcome α} {g : α → Outcome β}
    (hx : Yields I x r) (hf : ∀ a, r = .ok a → Yields I (f a) (g a)) :
    Yields I (x >>= f) (r >>= g) := by
  intro scopes hI
  obtain ⟨after, hrun, hafter⟩ := hx scopes hI
  rw [runFrom_bind, hrun]
  cases r with
  | ok a => exact hf a rfl after hafter
  | error i => exact ⟨after, rfl, hafter⟩

/-- What is done with the outcome, be it an interrupt. -/
theorem Yields.attempt_bind {x : Scoped α} {f : Outcome α → Scoped β} {r : Outcome α}
    {r' : Outcome β} (hx : Yields I x r) (hf : Yields I (f r) r') :
    Yields I (x.attempt >>= f) r' :=
  hx.attempt.bind fun _ h => Except.ok.inj h ▸ hf

theorem Yields.located {x : Scoped α} {r : Outcome α} (h : Yields I x r) (span : Span) :
    Yields I (x.located span) (.located span r) := h.attempt_bind (yields_ofOutcome _)

theorem Yields.condition {x : Scoped Value} {r : Outcome Value} (h : Yields I x r) (span : Span) :
    Yields I (x.condition span) (.condition span r) := h.attempt_bind (yields_ofOutcome _)

/-! ### Operators and loops -/

theorem Yields.logical {left right : Scoped Bool} {a b : Outcome Bool} (hleft : Yields I left a)
    (hright : Yields I right b) (decisive : Bool) :
    Yields I (logical decisive left right) (JsonTemplate.logical decisive a fun _ => b) := by
  unfold Scoped.logical JsonTemplate.logical
  refine hleft.attempt_bind ?_
  cases a with
  | ok a =>
    dsimp only
    split
    · exact yields_pure _
    · refine hright.attempt_bind ?_
      cases b with
      | ok b => cases b <;> cases decisive <;> exact yields_pure _
      | error i => exact yields_throw i
  | error i =>
    refine hright.attempt_bind ?_
    cases b with
    | ok b =>
      dsimp only
      split
      · exact yields_pure _
      · exact yields_throw i
    | error j => exact yields_throw i

theorem Yields.binary {left right : Scoped Value} {a b : Outcome Value} (hleft : Yields I left a)
    (hright : Yields I right b) (op : BinaryOp) (leftSpan rightSpan : Span) :
    Yields I (binary op leftSpan rightSpan left right)
      (op.outcome leftSpan rightSpan a fun _ => b) := by
  unfold Scoped.binary BinaryOp.outcome
  cases op.decisive? with
  | some decisive =>
    exact ((hleft.condition leftSpan).logical (hright.condition rightSpan) decisive).bind
      fun _ _ => yields_pure _
  | none =>
    exact hleft.bind fun _ _ => hright.bind fun _ _ => yields_ofOutcome _

variable {test : Nat → Value → Scoped Bool} {outcome : Nat → Value → Outcome Bool}

theorem yields_filter (h : ∀ number item, Yields I (test number item) (outcome number item)) :
    ∀ (items : List Value) (number : Nat),
      Yields I (filter test number items) (Loop.filter outcome number items)
  | [], _ => yields_pure _
  | item :: rest, number => (h number item).bind fun _ _ =>
    (yields_filter h rest (number + 1)).bind fun _ _ => yields_pure _

theorem yields_count (h : ∀ number item, Yields I (test number item) (outcome number item)) :
    ∀ (items : List Value) (number : Nat),
      Yields I (count test number items) (Loop.count outcome number items)
  | [], _ => yields_pure _
  | item :: rest, number => (h number item).bind fun _ _ =>
    (yields_count h rest (number + 1)).bind fun _ _ => yields_pure _

theorem yields_decide (h : ∀ number item, Yields I (test number item) (outcome number item))
    (decisive : Bool) : ∀ (items : List Value) (number : Nat),
      Yields I (decide decisive test number items) (Loop.decide decisive outcome number items)
  | [], _ => yields_pure _
  | item :: rest, number => by
    have hrest := yields_decide h decisive rest (number + 1)
    rw [decide, Loop.decide]
    refine (h number item).attempt_bind ?_
    rcases outcome number item with (_ | failure) | b
    · exact yields_throw _
    · refine hrest.attempt_bind ?_
      rcases Loop.decide decisive outcome (number + 1) rest with (_ | _) | b
      · exact yields_throw _
      · exact yields_throw _
      · dsimp only
        split
        · exact yields_pure _
        · exact yields_throw _
    · dsimp only
      split
      · exact yields_pure _
      · exact hrest

theorem yields_quantify (h : ∀ number item, Yields I (test number item) (outcome number item))
    (q : Quantifier) (items : List Value) :
    Yields I (quantify q test items) (q.run outcome items) := by
  cases q with
  | filter => exact (yields_filter h items 0).bind fun _ _ => yields_pure _
  | all => exact (yields_decide h false items 0).bind fun _ _ => yields_pure _
  | any => exact (yields_decide h true items 0).bind fun _ _ => yields_pure _
  | one => exact (yields_count h items 0).bind fun _ _ => yields_pure _

theorem yields_collect {step : Nat → Value → Scoped (Option Value)}
    {image : Nat → Value → Outcome Value}
    (h : ∀ number item, Yields I (step number item) (do
      if ← outcome number item then return some (← image number item) else return none)) :
    ∀ (items : List Value) (number : Nat),
      Yields I (collect step number items) (Loop.collect outcome image number items)
  | [], _ => yields_pure _
  | item :: rest, number => by
    have hrest := yields_collect h rest (number + 1)
    have hloop : Loop.collect outcome image number (item :: rest) = (do
        match ← (do
          if ← outcome number item then return some (← image number item) else return none) with
        | some first => return first :: (← Loop.collect outcome image (number + 1) rest)
        | none => Loop.collect outcome image (number + 1) rest) := by
      rw [Loop.collect]
      rcases outcome number item with _ | _ | _
      · rfl
      · rfl
      · cases image number item <;> rfl
    rw [hloop, collect]
    refine (h number item).bind fun found _ => ?_
    cases found with
    | some first => exact hrest.bind fun _ _ => yields_pure _
    | none => exact hrest

/-! ### Scopes of loops -/

/-- The scopes with one more table, in which no name but the given one has a value. -/
def Inside (name : String) (scopes : Scopes) : Scopes → Prop := fun after =>
  ∃ frame : Entries Value, (∀ other, other ≠ name → frame.get? other = none) ∧
    after = frame :: scopes

/-- A loop that keeps to its table leaves the scopes as they were. -/
theorem Yields.inScope {name : String} {scopes : Scopes} {x : Scoped α} {r : Outcome α}
    (h : Yields (Inside name scopes) x r) : Yields (· = scopes) x.inScope r := by
  rintro start rfl
  obtain ⟨after, hrun, frame, -, rfl⟩ := h ([] :: start) ⟨[], fun _ _ => rfl, rfl⟩
  refine ⟨start, ?_, rfl⟩
  have hinScope : x.inScope.runFrom start =
      ((x.runFrom ([] :: start)).1, (x.runFrom ([] :: start)).2.tail) := rfl
  rw [hinScope, hrun]
  rfl

/-- For an item the loop's step has the outcome that it has where the variable is the item. -/
theorem yields_step {name : String} {scopes : Scopes} {x : Nat → Scoped α} (context : Context)
    (outcome : Nat → Context → Outcome α)
    (h : ∀ number inner, Yields (· = inner) (x number) (outcome number (inner.onto context)))
    (number : Nat) (item : Value) :
    Yields (Inside name scopes) (step name x number item)
      (outcome number ((scopes.onto context).bind name item)) := by
  rintro _ ⟨frame, hframe, rfl⟩
  obtain ⟨_, hrun, rfl⟩ := h number (Scopes.bind name item (frame :: scopes)) _ rfl
  rw [Scopes.onto_bind hframe] at hrun
  refine ⟨_, hrun, frame.insert name item, fun other hother => ?_, rfl⟩
  rw [Entries.get?_insert_of_ne _ _ hother]
  exact hframe other hother

end Yields

end Scoped

/-! ## Expressions -/

namespace Expr

section Run

variable (env : Environment) (context : Context)

mutual

/-- Evaluates with a stack of scopes over the context of the program. -/
def run (e : Expr) (origin : Origin) : Scoped Value :=
  match e with
  | literal _ value => return .ofLiteral value
  | list span items => .located span do
    return .list (← runItems items origin 0)
  | dict span entries => .located span do
    return .ofMap (← runEntries entries origin 0)
  | ident span name => .located span (.resolve context name)
  | select span operand field => .located span do
    .ofOutcome (.ofResult ((← operand.run (origin.child 0)).select field))
  | index span operand i => .located span do
    let value ← operand.run (origin.child 0)
    .ofOutcome (.ofResult (value.index (← i.run (origin.child 1))))
  | call span target function args => .located span do
    let receiver ← runOptional target (origin.child 0)
    let args ← runItems args origin 2
    .ofOutcome (env.call function (origin.child 1) receiver args)
  | has span operand field => .located span do
    let value ← operand.run (origin.child 0)
    return .bool (← .ofOutcome (.ofResult (value.hasField field)))
  | quantify span q source name test => .located span do
    let items ← .ofOutcome ((← source.run (origin.child 0)).range source.span)
    .inScope (.quantify q (.step name fun number =>
      (test.run (origin.child (number + 1))).condition test.span) items)
  | collect span source name test image => .located span do
    let items ← .ofOutcome ((← source.run (origin.child 0)).range source.span)
    return .list (← .inScope (.collect (.step name fun number => do
      if ← runTest test (origin.child (2 * number + 1)) then
        return some (← image.run (origin.child (2 * number + 2)))
      else return none) 0 items))
  | conditional span test yes no => .located span do
    if ← (test.run (origin.child 0)).condition test.span then yes.run (origin.child 1)
    else no.run (origin.child 2)
  | binary span op left right => .located span
    (.binary op left.span right.span (left.run (origin.child 0)) (right.run (origin.child 1)))
  | unary span op operand => .located span do
    .ofOutcome (op.apply (← operand.run (origin.child 0)))

def runOptional (e : Option Expr) (origin : Origin) : Scoped (Option Value) :=
  match e with
  | none => return none
  | some e => do return some (← e.run origin)

def runTest (e : Option Expr) (origin : Origin) : Scoped Bool :=
  match e with
  | none => return true
  | some e => (e.run origin).condition e.span

def runItems (items : List Expr) (origin : Origin) (part : Nat) : Scoped (List Value) :=
  match items with
  | [] => return []
  | e :: rest => do
    let value ← e.run (origin.child part)
    return value :: (← runItems rest origin (part + 1))

def runEntries (entries : List (Expr × Expr)) (origin : Origin) (part : Nat) :
    Scoped (List (String × Value)) :=
  match entries with
  | [] => return []
  | (k, e) :: rest => do
    let key ← .ofOutcome (.ofResult (← k.run (origin.child part)).mapKey)
    let value ← e.run (origin.child (part + 1))
    return (key, value) :: (← runEntries rest origin (part + 2))

end

end Run

section Yields

variable {env : Environment} {context : Context}

open Scoped

mutual

/-- **Evaluation leaves the scopes as they were**, and has its outcome in the context they make. -/
theorem run_yields : ∀ (e : Expr) (origin : Origin) (scopes : Scopes),
    Yields (· = scopes) (e.run env context origin) (e.eval env origin (scopes.onto context))
  | literal _ _, _, _ => yields_pure _
  | list span items, origin, scopes =>
    ((runItems_yields items origin 0 scopes).bind fun _ _ => yields_pure _).located span
  | dict span entries, origin, scopes =>
    ((runEntries_yields entries origin 0 scopes).bind fun _ _ => yields_pure _).located span
  | ident span name, origin, scopes => by
    refine Yields.located ?_ span
    rintro start rfl
    exact ⟨start, rfl, rfl⟩
  | select span operand field, origin, scopes =>
    ((run_yields operand _ scopes).bind fun _ _ => yields_ofOutcome _).located span
  | index span operand i, origin, scopes =>
    ((run_yields operand _ scopes).bind fun _ _ =>
      (run_yields i _ scopes).bind fun _ _ => yields_ofOutcome _).located span
  | call span target function args, origin, scopes =>
    ((runOptional_yields target _ scopes).bind fun _ _ =>
      (runItems_yields args origin 2 scopes).bind fun _ _ => yields_ofOutcome _).located span
  | has span operand field, origin, scopes =>
    ((run_yields operand _ scopes).bind fun _ _ =>
      (yields_ofOutcome _).bind fun _ _ => yields_pure _).located span
  | quantify span q range name test, origin, scopes => by
    rw [run, eval]
    refine Yields.located ((run_yields range _ scopes).bind fun _ _ =>
      (yields_ofOutcome _).bind fun items _ =>
        Yields.inScope (yields_quantify (I := Inside name scopes) ?_ q items)) span
    exact yields_step context
      (fun number inner => .condition test.span (test.eval env (origin.child (number + 1)) inner))
      fun number inner => (run_yields test _ inner).condition test.span
  | collect span range name test image, origin, scopes => by
    rw [run, eval]
    refine Yields.located ((run_yields range _ scopes).bind fun _ _ =>
      (yields_ofOutcome _).bind fun items _ =>
        (Yields.inScope (yields_collect (I := Inside name scopes) ?_ items 0)).bind fun _ _ =>
          yields_pure _) span
    refine yields_step context (fun number inner => do
      if ← evalTest env test (origin.child (2 * number + 1)) inner then
        return some (← image.eval env (origin.child (2 * number + 2)) inner)
      else return none) fun number inner => (runTest_yields test _ inner).bind fun passed _ => ?_
    cases passed with
    | false => exact yields_pure _
    | true => exact (run_yields image _ inner).bind fun _ _ => yields_pure _
  | conditional span condition yes no, origin, scopes => by
    rw [run, eval]
    refine Yields.located
      (((run_yields condition _ scopes).condition _).bind fun holds _ => ?_) span
    cases holds with
    | false => exact run_yields no _ scopes
    | true => exact run_yields yes _ scopes
  | binary span op left right, origin, scopes =>
    ((run_yields left _ scopes).binary (run_yields right _ scopes) op _ _).located span
  | unary span op operand, origin, scopes =>
    ((run_yields operand _ scopes).bind fun _ _ => yields_ofOutcome _).located span

theorem runOptional_yields : ∀ (e : Option Expr) (origin : Origin) (scopes : Scopes),
    Yields (· = scopes) (runOptional env context e origin)
      (evalOptional env e origin (scopes.onto context))
  | none, _, _ => yields_pure _
  | some e, origin, scopes => (run_yields e origin scopes).bind fun _ _ => yields_pure _

theorem runTest_yields : ∀ (e : Option Expr) (origin : Origin) (scopes : Scopes),
    Yields (· = scopes) (runTest env context e origin)
      (evalTest env e origin (scopes.onto context))
  | none, _, _ => yields_pure _
  | some e, origin, scopes => (run_yields e origin scopes).condition e.span

theorem runItems_yields : ∀ (items : List Expr) (origin : Origin) (part : Nat) (scopes : Scopes),
    Yields (· = scopes) (runItems env context items origin part)
      (evalItems env items origin part (scopes.onto context))
  | [], _, _, _ => yields_pure _
  | e :: rest, origin, part, scopes => (run_yields e _ scopes).bind fun _ _ =>
    (runItems_yields rest origin (part + 1) scopes).bind fun _ _ => yields_pure _

theorem runEntries_yields : ∀ (entries : List (Expr × Expr)) (origin : Origin) (part : Nat)
    (scopes : Scopes), Yields (· = scopes) (runEntries env context entries origin part)
      (evalEntries env entries origin part (scopes.onto context))
  | [], _, _, _ => yields_pure _
  | (k, e) :: rest, origin, part, scopes => (run_yields k _ scopes).bind fun _ _ =>
    (yields_ofOutcome _).bind fun _ _ => (run_yields e _ scopes).bind fun _ _ =>
      (runEntries_yields rest origin (part + 2) scopes).bind fun _ _ => yields_pure _

end

end Yields

theorem run_eq (env : Environment) (context : Context) (e : Expr) (origin : Origin)
    (scopes : Scopes) : (e.run env context origin).runFrom scopes =
      (e.eval env origin (scopes.onto context), scopes) := by
  obtain ⟨_, hrun, rfl⟩ := run_yields e origin scopes scopes rfl
  exact hrun

end Expr

/-- **The variables of loops are lexical.** A name that does not occur in an expression can be put
for the variable of any loop in it, with the occurrences that the loop binds: the outcome is the
same in every setting, also after names of types have been resolved. And whatever comes of an
evaluation, it leaves the scopes as it found them, has the outcome of `Expr.eval` in the context
they make, and is not noticed by what is evaluated after it. -/
theorem loop_variables_are_lexical :
    (∀ (e : Expr) (y : String), y ∉ e.names → ∀ path env origin context,
      (e.renameAt y path).eval env origin context = e.eval env origin context ∧
      ((e.renameAt y path).resolveTypes env []).eval env origin context =
        (e.resolveTypes env []).eval env origin context) ∧
    ∀ (env : Environment) (context : Context) (e : Expr) (origin : Origin) (scopes : Scopes),
      (e.run env context origin).runFrom scopes =
        (e.eval env origin (scopes.onto context), scopes) ∧
      (e.run env context origin).runFrom [] = (e.eval env origin context, []) ∧
      ∀ (sibling : Expr) (place : Origin),
        (do
          let _ ← (e.run env context origin).attempt
          sibling.run env context place).runFrom scopes =
        (sibling.run env context place).runFrom scopes := by
  refine ⟨fun e y hy path env origin context => ?_,
    fun env context e origin scopes => ⟨e.run_eq env context origin scopes,
      e.run_eq env context origin [], fun sibling place => ?_⟩⟩
  · have hsame := Expr.same_renameAt path hy
    refine ⟨hsame.eval env origin context, ?_⟩
    rw [Expr.eval_resolveTypes, Expr.eval_resolveTypes, hsame.eval]
  · have hboth : Scoped.Yields (· = scopes) (do
        let _ ← (e.run env context origin).attempt
        sibling.run env context place) (sibling.eval env place (scopes.onto context)) :=
      (Expr.run_yields e origin scopes).attempt_bind (Expr.run_yields sibling place scopes)
    obtain ⟨_, hrun, rfl⟩ := hboth scopes rfl
    rw [hrun, Expr.run_eq]

/-- `[[1]].map(x, x.exists(x, x == 1))` is `[[1]].map(y, y.exists(x, x == 1))`: the outer variable
is the range of the inner loop, which has its own variable. -/
theorem loop_variables_are_lexical_of_nested_loops :
    let one : Expr := .literal ⟨2, 3⟩ (.number (.ofNat 1))
    let inner (name : String) : Expr := .quantify ⟨13, 31⟩ .any (.ident ⟨13, 14⟩ name) "x"
      (.binary ⟨25, 31⟩ .eq (.ident ⟨25, 26⟩ "x") one)
    let outer (name : String) : Expr :=
      .collect ⟨0, 32⟩ (.list ⟨0, 5⟩ [.list ⟨1, 4⟩ [one]]) name none (inner name)
    (outer "x").renameAt "y" [] = outer "y" ∧ ∀ env origin context,
      (outer "y").eval env origin context = (outer "x").eval env origin context := by
  intro one inner outer
  refine ⟨rfl, fun env origin context => ?_⟩
  exact (loop_variables_are_lexical.1 (outer "x") "y" (by decide +kernel) [] env origin context).1

end JsonTemplate
