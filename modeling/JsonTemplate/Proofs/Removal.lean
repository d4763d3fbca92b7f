/-
Where a removal goes. `Visit.Asks` says which parts an evaluation evaluates: each once those before
it have not settled the outcome. A removal of a part is one of the expression, but for a logical
operator that takes the removal of one side for a failure (`Visit.Absorbs`); nothing else stops it
on its way to the expansion (`removal_omits_entry_unless_absorbed`). It comes from a call
(`Visit.removed_by_call`).
-/
import Mathlib.Data.List.Basic
import Mathlib.Logic.Relation
import JsonTemplate.Template.Basic
import JsonTemplate.Proofs.Relaxation

namespace JsonTemplate

/-! ## Steps that cannot remove -/

section Steps

variable {α : Type}

@[simp] theorem Outcome.located_eq_removed {span : Span} {x : Outcome α} :
    x.located span = .error .removed ↔ x = .error .removed := by
  rcases x with (_ | f) | a <;> simp [Outcome.located, Interrupt.orSpan]

@[simp] theorem Outcome.ofResult_ne_removed {x : Except Failure α} :
    Outcome.ofResult x ≠ .error .removed := by
  cases x <;> simp [Outcome.ofResult]

@[simp] theorem Outcome.raise_ne_removed {cause : Cause} :
    (Outcome.raise cause : Outcome α) ≠ .error .removed := by
  simp [Outcome.raise]

@[simp] theorem Context.resolve_ne_removed {context : Context} {name : String} :
    context.resolve name ≠ .error .removed := by
  unfold Context.resolve
  cases context name <;> simp

@[simp] theorem Value.range_ne_removed {span : Span} {v : Value} :
    v.range span ≠ .error .removed :=
  (failed_invariant.range trivial span).ne_error (· rfl)

@[simp] theorem UnaryOp.apply_ne_removed {op : UnaryOp} {v : Value} :
    op.apply v ≠ .error .removed :=
  (failed_invariant.toClosed.unary op trivial).ne_error (· rfl)

@[simp] theorem BinaryOp.apply_ne_removed {op : BinaryOp} {left right : Value} :
    op.apply left right ≠ .error .removed :=
  (failed_invariant.toClosed.binary op trivial trivial).ne_error (· rfl)

end Steps

/-! ## Runs over items -/

/-- A run over the items, which have numbers, comes to an item: it goes on after all before it. -/
inductive Reaches {α : Type} (goesOn : Nat → α → Prop) : Nat → List α → Nat → α → Prop
  | here {number : Nat} {item : α} {rest : List α} :
    Reaches goesOn number (item :: rest) number item
  | later {number m : Nat} {item a : α} {rest : List α} : goesOn number item →
    Reaches goesOn (number + 1) rest m a → Reaches goesOn number (item :: rest) m a

section Reaches

variable {α : Type} {goesOn : Nat → α → Prop} {P : Nat → α → Prop} {number : Nat}

theorem not_reaches_nil : ¬ ∃ m a, Reaches goesOn number [] m a ∧ P m a := by
  rintro ⟨m, a, h, -⟩
  cases h

theorem Reaches.mem {items : List α} {m : Nat} {a : α} (h : Reaches goesOn number items m a) :
    a ∈ items := by
  induction h with
  | here => exact List.mem_cons_self
  | later _ _ ih => exact List.mem_cons_of_mem _ ih

theorem reaches_cons {item : α} {rest : List α} :
    (∃ m a, Reaches goesOn number (item :: rest) m a ∧ P m a) ↔
      P number item ∨
        goesOn number item ∧ ∃ m a, Reaches goesOn (number + 1) rest m a ∧ P m a := by
  constructor
  · rintro ⟨m, a, h, hP⟩
    cases h with
    | here => exact .inl hP
    | later hitem hrest => exact .inr ⟨hitem, m, a, hrest, hP⟩
  · rintro (hP | ⟨hitem, m, a, hrest, hP⟩)
    · exact ⟨_, _, .here, hP⟩
    · exact ⟨m, a, .later hitem hrest, hP⟩

end Reaches

/-- A loop looks at the next item after a test with this outcome. -/
def Quantifier.GoesOn : Quantifier → Outcome Bool → Prop
  | filter, x | one, x => ∃ b, x = .ok b
  | all, x => x ≠ .ok false ∧ x ≠ .error .removed
  | any, x => x ≠ .ok true ∧ x ≠ .error .removed

/-- `collect` looks at the next item after a test and an image with these outcomes. -/
def Loop.GoesOn (test : Outcome Bool) (image : Outcome Value) : Prop :=
  test = .ok false ∨ test = .ok true ∧ ∃ v, image = .ok v

namespace Loop

variable {test : Step Bool} {image : Step Value} {decisive : Bool} {number : Nat}
  {items : List Value}

theorem filter_eq_removed : filter test number items = .error .removed ↔
    ∃ m v, Reaches (fun n v => ∃ b, test n v = .ok b) number items m v ∧
      test m v = .error .removed := by
  induction items generalizing number with
  | nil => simp [filter, not_reaches_nil]
  | cons item rest ih => simp [filter, bind_eq_error, reaches_cons, ih]

theorem count_eq_removed : count test number items = .error .removed ↔
    ∃ m v, Reaches (fun n v => ∃ b, test n v = .ok b) number items m v ∧
      test m v = .error .removed := by
  induction items generalizing number with
  | nil => simp [count, not_reaches_nil]
  | cons item rest ih => simp [count, bind_eq_error, reaches_cons, ih]

theorem decide_eq_removed : decide decisive test number items = .error .removed ↔
    ∃ m v, Reaches (fun n v => test n v ≠ .ok decisive ∧ test n v ≠ .error .removed)
      number items m v ∧ test m v = .error .removed := by
  induction items generalizing number with
  | nil => simp [decide, not_reaches_nil]
  | cons item rest ih =>
    rw [reaches_cons, ← ih, decide]
    rcases test number item with (_ | f) | b
    · simp
    · -- The failure is kept, but a removal of a later item goes before it.
      rcases decide decisive test (number + 1) rest with (_ | g) | b
      · simp
      · simp
      · by_cases hb : b = decisive <;> simp [hb]
    · by_cases hb : b = decisive <;> simp [hb]

theorem collect_eq_removed : collect test image number items = .error .removed ↔
    ∃ m v, Reaches (fun n v => GoesOn (test n v) (image n v)) number items m v ∧
      (test m v = .error .removed ∨ test m v = .ok true ∧ image m v = .error .removed) := by
  induction items generalizing number with
  | nil => simp [collect, not_reaches_nil]
  | cons item rest ih =>
    rw [reaches_cons, ← ih, collect]
    rcases test number item with i | _ | _
    · simp [GoesOn]
    · simp [GoesOn]
    · simp [GoesOn, bind_eq_error]

end Loop

theorem Quantifier.run_eq_removed {q : Quantifier} {test : Loop.Step Bool} {items : List Value} :
    q.run test items = .error .removed ↔
      ∃ m v, Reaches (fun n v => q.GoesOn (test n v)) 0 items m v ∧ test m v = .error .removed := by
  cases q <;> simp [run, GoesOn, bind_eq_error, Loop.filter_eq_removed, Loop.count_eq_removed,
    Loop.decide_eq_removed]

/-- A logical operator is removed when a side is that it looks at, unless the other side decides or
the first one has failed. -/
theorem logical_eq_removed {decisive : Bool} {left : Outcome Bool} {right : Unit → Outcome Bool} :
    logical decisive left right = .error .removed ↔
      left = .error .removed ∧ right () ≠ .ok decisive ∨
        left = .ok (!decisive) ∧ right () = .error .removed := by
  rcases left with i | a
  · rcases hright : right () with j | b
    · simp [logical, hright]
    · by_cases hb : b = decisive <;> simp [logical, hright, hb]
  · by_cases ha : a = decisive
    · simp [logical, ha]
    · rcases hright : right () with j | b
      · simp [logical, hright, ha, Bool.eq_not]
      · by_cases hb : b = decisive <;> simp [logical, hright, ha, hb]

namespace BinaryOp

variable {op : BinaryOp} {decisive : Bool} {leftSpan rightSpan : Span} {left : Outcome Value}
  {right : Unit → Outcome Value}

theorem outcome_eq_removed_of_strict (h : op.decisive? = none) :
    op.outcome leftSpan rightSpan left right = .error .removed ↔
      left = .error .removed ∨ (∃ v, left = .ok v) ∧ right () = .error .removed := by
  simp [outcome, h, bind_eq_error]

theorem outcome_eq_removed_of_logical (h : op.decisive? = some decisive) :
    op.outcome leftSpan rightSpan left right = .error .removed ↔
      left = .error .removed ∧ (right ()).condition rightSpan ≠ .ok decisive ∨
        left.condition leftSpan = .ok (!decisive) ∧ right () = .error .removed := by
  simp [outcome, h, bind_eq_error, logical_eq_removed]

end BinaryOp

/-! ## Visits -/

/-- An expression at its place in a context, as the evaluation comes to it. -/
structure Visit where
  expr : Expr
  origin : Origin
  context : Context

/-- The part that an expression evaluates before everything else. Those of a list or a map stand
in a row instead. -/
def Expr.first? : Expr → Option Expr
  | literal _ _ | ident _ _ | list _ _ | dict _ _ => none
  | select _ operand _ | has _ operand _ | unary _ _ operand | index _ operand _ => some operand
  | call _ target _ _ => target
  | quantify _ _ range _ _ | collect _ range _ _ _ => some range
  | conditional _ condition _ _ => some condition
  | binary _ _ left _ => some left

namespace Visit

variable (env : Environment)

def outcome (v : Visit) : Outcome Value := v.expr.eval env v.origin v.context

/-- The key and the value of an entry are given. -/
def EntryGiven (origin : Origin) (context : Context) (number : Nat) (entry : Expr × Expr) : Prop :=
  (∃ v key, entry.1.eval env (origin.child (2 * number)) context = .ok v ∧ v.mapKey = .ok key) ∧
    ∃ v, entry.2.eval env (origin.child (2 * number + 1)) context = .ok v

/-- The evaluation of an expression evaluates a part of it. -/
inductive Asks : Visit → Visit → Prop
  | first {e part origin context} : e.first? = some part →
    Asks ⟨e, origin, context⟩ ⟨part, origin.child 0, context⟩
  | item {span items origin context number e} :
    Reaches (fun n e => ∃ v, e.eval env (origin.child n) context = .ok v) 0 items number e →
    Asks ⟨.list span items, origin, context⟩ ⟨e, origin.child number, context⟩
  | key {span entries origin context number key e} :
    Reaches (EntryGiven env origin context) 0 entries number (key, e) →
    Asks ⟨.dict span entries, origin, context⟩ ⟨key, origin.child (2 * number), context⟩
  | entry {span entries origin context number key e v name} :
    Reaches (EntryGiven env origin context) 0 entries number (key, e) →
    key.eval env (origin.child (2 * number)) context = .ok v → v.mapKey = .ok name →
    Asks ⟨.dict span entries, origin, context⟩ ⟨e, origin.child (2 * number + 1), context⟩
  | position {span operand i origin context v} :
    operand.eval env (origin.child 0) context = .ok v →
    Asks ⟨.index span operand i, origin, context⟩ ⟨i, origin.child 1, context⟩
  | argument {span target function args origin context receiver number e} :
    Expr.evalOptional env target (origin.child 0) context = .ok receiver →
    Reaches (fun n e => ∃ v, e.eval env (origin.child n) context = .ok v) 2 args number e →
    Asks ⟨.call span target function args, origin, context⟩ ⟨e, origin.child number, context⟩
  | test {span q range name test origin context v items number item} :
    range.eval env (origin.child 0) context = .ok v → v.range range.span = .ok items →
    Reaches (fun n item => Quantifier.GoesOn q
      ((test.eval env (origin.child (n + 1)) (context.bind name item)).condition test.span))
      0 items number item →
    Asks ⟨.quantify span q range name test, origin, context⟩
      ⟨test, origin.child (number + 1), context.bind name item⟩
  | pass {span range name test image origin context v items number item} :
    range.eval env (origin.child 0) context = .ok v → v.range range.span = .ok items →
    Reaches (fun n item => Loop.GoesOn
      (Expr.evalTest env (some test) (origin.child (2 * n + 1)) (context.bind name item))
      (image.eval env (origin.child (2 * n + 2)) (context.bind name item))) 0 items number item →
    Asks ⟨.collect span range name (some test) image, origin, context⟩
      ⟨test, origin.child (2 * number + 1), context.bind name item⟩
  | image {span range name test image origin context v items number item} :
    range.eval env (origin.child 0) context = .ok v → v.range range.span = .ok items →
    Reaches (fun n item => Loop.GoesOn
      (Expr.evalTest env test (origin.child (2 * n + 1)) (context.bind name item))
      (image.eval env (origin.child (2 * n + 2)) (context.bind name item))) 0 items number item →
    Expr.evalTest env test (origin.child (2 * number + 1)) (context.bind name item) = .ok true →
    Asks ⟨.collect span range name test image, origin, context⟩
      ⟨image, origin.child (2 * number + 2), context.bind name item⟩
  | yes {span condition yes no origin context} :
    (condition.eval env (origin.child 0) context).condition condition.span = .ok true →
    Asks ⟨.conditional span condition yes no, origin, context⟩ ⟨yes, origin.child 1, context⟩
  | no {span condition yes no origin context} :
    (condition.eval env (origin.child 0) context).condition condition.span = .ok false →
    Asks ⟨.conditional span condition yes no, origin, context⟩ ⟨no, origin.child 2, context⟩
  | right {span op left right origin context v} : op.decisive? = none →
    left.eval env (origin.child 0) context = .ok v →
    Asks ⟨.binary span op left right, origin, context⟩ ⟨right, origin.child 1, context⟩
  | other {span op left right origin context decisive} : op.decisive? = some decisive →
    (left.eval env (origin.child 0) context).condition left.span ≠ .ok decisive →
    Asks ⟨.binary span op left right, origin, context⟩ ⟨right, origin.child 1, context⟩

/-- A logical operator takes the removal of one side for a failure: the other side decides, or the
first one has failed already. -/
inductive Absorbs : Visit → Prop
  | decided {span op left right origin context decisive} : op.decisive? = some decisive →
    left.eval env (origin.child 0) context = .error .removed →
    (right.eval env (origin.child 1) context).condition right.span = .ok decisive →
    Absorbs ⟨.binary span op left right, origin, context⟩
  | failed {span op left right origin context decisive f} : op.decisive? = some decisive →
    (left.eval env (origin.child 0) context).condition left.span = .error (.failed f) →
    right.eval env (origin.child 1) context = .error .removed →
    Absorbs ⟨.binary span op left right, origin, context⟩

/-- The evaluation of an expression comes to another, a part of a part and so on. -/
abbrev Evaluates : Visit → Visit → Prop := Relation.ReflTransGen (Asks env)

end Visit

/-! ## One step -/

namespace Expr

variable {env : Environment} {origin : Origin} {context : Context}

theorem evalItems_eq_removed {items : List Expr} {part : Nat} :
    evalItems env items origin part context = .error .removed ↔
      ∃ number e, Reaches (fun n (e : Expr) => ∃ v, e.eval env (origin.child n) context = .ok v)
        part items number e ∧ e.eval env (origin.child number) context = .error .removed := by
  induction items generalizing part with
  | nil => simp [evalItems, not_reaches_nil]
  | cons e rest ih => simp [evalItems, bind_eq_error, reaches_cons, ih]

theorem evalEntries_eq_removed {entries : List (Expr × Expr)} {number : Nat} :
    evalEntries env entries origin (2 * number) context = .error .removed ↔
      ∃ n entry, Reaches (Visit.EntryGiven env origin context) number entries n entry ∧
        (entry.1.eval env (origin.child (2 * n)) context = .error .removed ∨
          (∃ v name, entry.1.eval env (origin.child (2 * n)) context = .ok v ∧
            v.mapKey = .ok name) ∧
          entry.2.eval env (origin.child (2 * n + 1)) context = .error .removed) := by
  induction entries generalizing number with
  | nil => exact iff_of_false (by simp [evalEntries]) fun ⟨n, entry, h, _⟩ => nomatch h
  | cons entry rest ih =>
    obtain ⟨key, e⟩ := entry
    have hpair : ∀ P : Nat → Expr × Expr → Prop,
        (∃ n entry, Reaches (Visit.EntryGiven env origin context) number ((key, e) :: rest) n
          entry ∧ P n entry) ↔ _ := fun P => reaches_cons
    rw [hpair, ← ih, evalEntries, Visit.EntryGiven]
    rcases hkey : key.eval env (origin.child (2 * number)) context with i | v
    · simp
    · cases hname : v.mapKey with
      | error f => simp [hname, Outcome.ofResult]
      | ok name => simp [hname, Outcome.ofResult, bind_eq_error]; rfl

theorem evalOptional_eq_none {e : Option Expr} (h : evalOptional env e origin context = .ok none) :
    e = none := by
  cases e with
  | none => rfl
  | some e => simp [evalOptional, bind_eq_ok] at h

theorem evalItems_eq_nil {items : List Expr} {part : Nat}
    (h : evalItems env items origin part context = .ok []) : items = [] := by
  cases items with
  | nil => rfl
  | cons e rest => simp [evalItems, bind_eq_ok] at h

end Expr

namespace Visit

variable {env : Environment} {v part : Visit}

/-- **The removal of a part is one of the expression**, unless a logical operator absorbs it. -/
theorem Asks.removed (h : v.Asks env part) (hpart : part.outcome env = .error .removed) :
    v.outcome env = .error .removed ∨ v.Absorbs env := by
  unfold outcome at hpart ⊢
  cases h with
  | @first e part origin context hfirst =>
    cases e with
    | literal | ident | list | dict => cases hfirst
    | select | has | unary | index | quantify | collect | conditional =>
      cases hfirst
      simp [Expr.eval, hpart]
    | call =>
      cases hfirst
      simp [Expr.eval, Expr.evalOptional, hpart]
    | binary span op left right =>
      cases hfirst
      rw [Expr.eval, Outcome.located_eq_removed]
      cases hop : op.decisive? with
      | none => exact .inl ((BinaryOp.outcome_eq_removed_of_strict hop).mpr (.inl hpart))
      | some decisive =>
        rw [BinaryOp.outcome_eq_removed_of_logical hop]
        by_cases hright :
            (right.eval env (origin.child 1) context).condition right.span = .ok decisive
        · exact .inr (.decided hop hpart hright)
        · exact .inl (.inl ⟨hpart, hright⟩)
  | item hreaches =>
    have hitems := Expr.evalItems_eq_removed.mpr ⟨_, _, hreaches, hpart⟩
    simp [Expr.eval, hitems]
  | key hreaches =>
    have hentries := Expr.evalEntries_eq_removed.mpr ⟨_, _, hreaches, .inl hpart⟩
    simp [Expr.eval, hentries]
  | entry hreaches hkey hname =>
    have hentries := Expr.evalEntries_eq_removed.mpr
      ⟨_, _, hreaches, .inr ⟨⟨_, _, hkey, hname⟩, hpart⟩⟩
    simp [Expr.eval, hentries]
  | position hoperand => simp [Expr.eval, hoperand, hpart]
  | argument htarget hreaches =>
    have hargs := Expr.evalItems_eq_removed.mpr ⟨_, _, hreaches, hpart⟩
    simp [Expr.eval, htarget, hargs]
  | test hrange hitems hreaches =>
    have hrun := Quantifier.run_eq_removed.mpr
      ⟨_, _, hreaches, Outcome.condition_eq_removed.mpr hpart⟩
    simp [Expr.eval, hrange, hitems, hrun]
  | pass hrange hitems hreaches =>
    have hrun := Loop.collect_eq_removed.mpr
      ⟨_, _, hreaches, .inl (Outcome.condition_eq_removed.mpr hpart)⟩
    simp [Expr.eval, hrange, hitems, hrun]
  | image hrange hitems hreaches hpass =>
    have hrun := Loop.collect_eq_removed.mpr ⟨_, _, hreaches, .inr ⟨hpass, hpart⟩⟩
    simp [Expr.eval, hrange, hitems, hrun]
  | yes hcondition | no hcondition => simp [Expr.eval, hcondition, hpart]
  | right hop hleft =>
    rw [Expr.eval, Outcome.located_eq_removed, BinaryOp.outcome_eq_removed_of_strict hop]
    exact .inl (.inr ⟨⟨_, hleft⟩, hpart⟩)
  | @other span op left right origin context decisive hop hleft =>
    rw [Expr.eval, Outcome.located_eq_removed, BinaryOp.outcome_eq_removed_of_logical hop]
    rcases hcondition : (left.eval env (origin.child 0) context).condition left.span with
      (_ | f) | b
    · exact .inl (.inl ⟨Outcome.condition_eq_removed.mp hcondition, by simp [hpart]⟩)
    · exact .inr (.failed hop hcondition hpart)
    · rw [hcondition] at hleft
      exact .inl (.inr ⟨by simpa [Bool.eq_not] using hleft, hpart⟩)

/-- An operator that absorbs a removal is not removed itself. -/
theorem Absorbs.not_removed (h : v.Absorbs env) : v.outcome env ≠ .error .removed := by
  unfold outcome
  cases h with
  | decided hop hleft hright =>
    rw [Expr.eval, Ne, Outcome.located_eq_removed, BinaryOp.outcome_eq_removed_of_logical hop]
    simp [hleft, hright]
  | @failed span op left right origin context decisive f hop hleft hright =>
    have hnot : left.eval env (origin.child 0) context ≠ .error .removed := fun h => by
      simp [h] at hleft
    rw [Expr.eval, Ne, Outcome.located_eq_removed, BinaryOp.outcome_eq_removed_of_logical hop]
    simp [hleft, hnot]

/-- A call whose function gives up the entry. -/
inductive CallRemoves (env : Environment) : Visit → Prop
  | intro {span target function args origin context receiver values} :
    Expr.evalOptional env target (origin.child 0) context = .ok receiver →
    Expr.evalItems env args origin 2 context = .ok values →
    env.call function (origin.child 1) receiver values = .error .removed →
    CallRemoves env ⟨.call span target function args, origin, context⟩

/-- A removed expression has a removed part, or is a call that removes. -/
theorem removed_of_part (h : v.outcome env = .error .removed) :
    (∃ part, v.Asks env part ∧ part.outcome env = .error .removed) ∨ v.CallRemoves env := by
  obtain ⟨e, origin, context⟩ := v
  unfold outcome at h
  have hfirst : ∀ part, e.first? = some part →
      part.eval env (origin.child 0) context = .error .removed →
      ∃ part, Asks env ⟨e, origin, context⟩ part ∧ part.outcome env = .error .removed :=
    fun part hpart hremoved => ⟨_, .first hpart, hremoved⟩
  cases e with
  | literal | ident => simp [Expr.eval] at h
  | list span items =>
    simp only [Expr.eval, Outcome.located_eq_removed, bind_eq_error, pure_eq_ok, reduceCtorEq,
      and_false, exists_false, or_false] at h
    obtain ⟨n, e, hreaches, he⟩ := Expr.evalItems_eq_removed.mp h
    exact .inl ⟨_, .item hreaches, he⟩
  | dict span entries =>
    simp only [Expr.eval, Outcome.located_eq_removed, bind_eq_error, pure_eq_ok, reduceCtorEq,
      and_false, exists_false, or_false] at h
    obtain ⟨n, ⟨key, e⟩, hreaches, hkey | ⟨⟨v, name, hkey, hname⟩, he⟩⟩ :=
      (@Expr.evalEntries_eq_removed env origin context entries 0).mp h
    · exact .inl ⟨_, .key hreaches, hkey⟩
    · exact .inl ⟨_, .entry hreaches hkey hname, he⟩
  | select span operand field | has span operand field | unary span op operand =>
    simp [Expr.eval, bind_eq_error] at h
    exact .inl (hfirst operand rfl h)
  | index span operand i =>
    simp only [Expr.eval, Outcome.located_eq_removed, bind_eq_error,
      Outcome.ofResult_ne_removed, and_false, exists_false, or_false] at h
    obtain h | ⟨v, hv, h⟩ := h
    · exact .inl (hfirst operand rfl h)
    · exact .inl ⟨_, .position hv, h⟩
  | call span target function args =>
    simp only [Expr.eval, Outcome.located_eq_removed, bind_eq_error] at h
    obtain h | ⟨receiver, hreceiver, h | ⟨values, hvalues, h⟩⟩ := h
    · cases target with
      | none => cases h
      | some target =>
        simp [Expr.evalOptional, bind_eq_error] at h
        exact .inl (hfirst target rfl h)
    · obtain ⟨n, e, hreaches, he⟩ := Expr.evalItems_eq_removed.mp h
      exact .inl ⟨_, .argument hreceiver hreaches, he⟩
    · exact .inr (.intro hreceiver hvalues h)
  | quantify span q range name test =>
    simp only [Expr.eval, Outcome.located_eq_removed, bind_eq_error] at h
    obtain h | ⟨v, hv, h | ⟨items, hitems, h⟩⟩ := h
    · exact .inl (hfirst range rfl h)
    · exact absurd h Value.range_ne_removed
    · obtain ⟨n, item, hreaches, htest⟩ := Quantifier.run_eq_removed.mp h
      exact .inl ⟨_, .test hv hitems hreaches, Outcome.condition_eq_removed.mp htest⟩
  | collect span range name test image =>
    simp only [Expr.eval, Outcome.located_eq_removed, bind_eq_error, pure_eq_ok, reduceCtorEq,
      and_false, exists_false, or_false] at h
    obtain h | ⟨v, hv, h | ⟨items, hitems, h⟩⟩ := h
    · exact .inl (hfirst range rfl h)
    · exact absurd h Value.range_ne_removed
    · obtain ⟨n, item, hreaches, htest | ⟨hpass, himage⟩⟩ := Loop.collect_eq_removed.mp h
      · cases test with
        | none => cases htest
        | some test =>
          exact .inl ⟨_, .pass hv hitems hreaches, Outcome.condition_eq_removed.mp htest⟩
      · exact .inl ⟨_, .image hv hitems hreaches hpass, himage⟩
  | conditional span condition yes no =>
    simp only [Expr.eval, Outcome.located_eq_removed, bind_eq_error] at h
    obtain h | ⟨b, hb, h⟩ := h
    · exact .inl (hfirst condition rfl (Outcome.condition_eq_removed.mp h))
    · cases b with
      | true => exact .inl ⟨_, .yes hb, h⟩
      | false => exact .inl ⟨_, .no hb, h⟩
  | binary span op left right =>
    rw [Expr.eval, Outcome.located_eq_removed] at h
    cases hop : op.decisive? with
    | none =>
      obtain h | ⟨⟨v, hv⟩, h⟩ := (BinaryOp.outcome_eq_removed_of_strict hop).mp h
      · exact .inl (hfirst left rfl h)
      · exact .inl ⟨_, .right hop hv, h⟩
    | some decisive =>
      obtain ⟨h, -⟩ | ⟨hleft, h⟩ := (BinaryOp.outcome_eq_removed_of_logical hop).mp h
      · exact .inl (hfirst left rfl h)
      · exact .inl ⟨_, .other hop (by simp [hleft]), h⟩

/-! ## Runs -/

/-- An operator on the way from one expression to another absorbs a removal. -/
def Absorbed (env : Environment) (start stop : Visit) : Prop :=
  ∃ v, start.Evaluates env v ∧ v.Evaluates env stop ∧ v.Absorbs env

/-- A removal comes up to where the evaluation started, unless it is absorbed on the way. -/
theorem Evaluates.removed {start stop : Visit} (h : start.Evaluates env stop)
    (hstop : stop.outcome env = .error .removed) :
    start.outcome env = .error .removed ∨ Absorbed env start stop := by
  induction h using Relation.ReflTransGen.head_induction_on with
  | refl => exact .inl hstop
  | @head v part hasks hrest ih =>
    rcases ih with hpart | ⟨w, hto, hfrom, habsorbs⟩
    · exact (hasks.removed hpart).imp_right fun habsorbs => ⟨v, .refl, .head hasks hrest, habsorbs⟩
    · exact .inr ⟨w, .head hasks hto, hfrom, habsorbs⟩

theorem sizeOf_first? {e part : Expr} (h : e.first? = some part) : sizeOf part < sizeOf e := by
  cases e with
  | literal | ident | list | dict => cases h
  | select | has | unary | index | call | quantify | collect | conditional | binary =>
    cases h
    simp only [Expr.select.sizeOf_spec, Expr.has.sizeOf_spec, Expr.unary.sizeOf_spec,
      Expr.index.sizeOf_spec, Expr.call.sizeOf_spec, Option.some.sizeOf_spec,
      Expr.quantify.sizeOf_spec, Expr.collect.sizeOf_spec, Expr.conditional.sizeOf_spec,
      Expr.binary.sizeOf_spec]
    omega

theorem Asks.sizeOf_lt (h : v.Asks env part) : sizeOf part.expr < sizeOf v.expr := by
  cases h with
  | first hfirst => exact sizeOf_first? hfirst
  | item hreaches =>
    have hlt := List.sizeOf_lt_of_mem hreaches.mem
    simp only [Expr.list.sizeOf_spec]
    omega
  | argument _ hreaches =>
    have hlt := List.sizeOf_lt_of_mem hreaches.mem
    simp only [Expr.call.sizeOf_spec]
    omega
  | key hreaches | entry hreaches =>
    have hlt := List.sizeOf_lt_of_mem hreaches.mem
    simp only [Prod.mk.sizeOf_spec] at hlt
    simp only [Expr.dict.sizeOf_spec]
    omega
  | position | test | image | yes | no | right | other =>
    simp only [Expr.index.sizeOf_spec, Expr.quantify.sizeOf_spec, Expr.collect.sizeOf_spec,
      Expr.conditional.sizeOf_spec, Expr.binary.sizeOf_spec]
    omega
  | pass =>
    simp only [Expr.collect.sizeOf_spec, Option.some.sizeOf_spec]
    omega

/-- A removal comes from a call that the evaluation comes to. -/
theorem removed_by_call {v : Visit} (h : v.outcome env = .error .removed) :
    ∃ call, v.Evaluates env call ∧ call.CallRemoves env := by
  rcases removed_of_part h with ⟨part, hasks, hpart⟩ | hcall
  · have hlt := hasks.sizeOf_lt
    obtain ⟨call, hto, hcall⟩ := removed_by_call hpart
    exact ⟨call, .head hasks hto, hcall⟩
  · exact ⟨v, .refl, hcall⟩
termination_by sizeOf v.expr

end Visit

/-! ## Leaves -/

/-- A call of `remove_property` without operands removes. -/
theorem TemplateOptions.call_removeProperty {env : Environment} {name : String}
    (h : env.functions.get? name = some removeProperty) (origin : Origin) :
    env.call name origin none [] = .error .removed := by
  rw [Environment.call, h]
  rfl

theorem Visit.outcome_removeProperty {env : Environment} {name : String}
    (h : env.functions.get? name = some TemplateOptions.removeProperty) (span : Span)
    (origin : Origin) (context : Context) :
    outcome env ⟨.call span none name [], origin, context⟩ = .error .removed := by
  simp [outcome, Expr.eval, Expr.evalOptional, Expr.evalItems,
    TemplateOptions.call_removeProperty h]

/-- Of the standard functions and `remove_property` only the latter removes, called without
operands: where the evaluation is removed, it has come to such a call. -/
theorem Visit.removed_by_removeProperty {env : Environment} {v : Visit}
    (hfunctions : ∀ name f, env.functions.get? name = some f →
      f ∈ Standard.functions ∨ f = TemplateOptions.removeProperty)
    (h : v.outcome env = .error .removed) :
    ∃ span name origin context, v.Evaluates env ⟨.call span none name [], origin, context⟩ ∧
      env.functions.get? name = some TemplateOptions.removeProperty := by
  obtain ⟨_, hto, hcall⟩ := removed_by_call h
  obtain @⟨span, target, name, args, origin, context, receiver, values, htarget, hargs, hcall⟩ :=
    hcall
  unfold Environment.call at hcall
  split at hcall
  · rename_i f hget
    split at hcall
    · rename_i haccepts
      rcases hfunctions name f hget with hf | rfl
      · exact absurd hcall ((Standard.functions_keep failed_invariant.toClosed f hf _ _ _
          (fun _ _ => trivial) fun _ _ => trivial).ne_error (· rfl))
      · -- Its only overload is without receiver and parameters.
        obtain ⟨rfl, rfl⟩ : receiver = none ∧ values = [] := by
          cases receiver <;> cases values <;> first | exact ⟨rfl, rfl⟩ | cases haccepts
        obtain rfl := Expr.evalOptional_eq_none htarget
        obtain rfl := Expr.evalItems_eq_nil hargs
        exact ⟨_, _, _, _, hto, hget⟩
    · exact absurd hcall Outcome.raise_ne_removed
  · exact absurd hcall Outcome.raise_ne_removed

/-- **A removal is one of everything around it, and its entry is left out under every policy**,
unless a logical operator on the way takes it for a failure. -/
theorem removal_omits_entry_unless_absorbed (env : Environment) {start stop : Visit}
    (h : start.Evaluates env stop) :
    (stop.outcome env = .error .removed →
      start.outcome env = .error .removed ∨ Visit.Absorbed env start stop) ∧
    (env.functions.get? "remove_property" = some TemplateOptions.removeProperty →
      (∃ span, stop.expr = .call span none "remove_property" []) →
      (∀ source policy, (Tree.expression ⟨start.expr, source, env⟩).expandNode policy start.context
          start.origin = .ok none) ∨ Visit.Absorbed env start stop) := by
  refine ⟨h.removed, fun hfunction ⟨span, hcall⟩ => ?_⟩
  have hstop : stop.outcome env = .error .removed := by
    obtain ⟨e, origin, context⟩ := stop
    cases hcall
    exact Visit.outcome_removeProperty hfunction span origin context
  refine (Visit.Evaluates.removed h hstop).imp_left fun hstart source policy => ?_
  rw [Visit.outcome] at hstart
  rw [Tree.expandNode, Program.eval, hstart]
  rfl

/-- A removal on the right of an operator whose left side does not decide, in a list. -/
theorem removal_omits_entry_of_item :
    let env := TemplateOptions.default.environment []
    let call : Expr := .call ⟨9, 26⟩ none "remove_property" []
    let start : Visit := ⟨.list ⟨0, 27⟩ [.binary ⟨1, 26⟩ .and (.literal ⟨1, 5⟩ (.bool true)) call],
      default, fun _ => none⟩
    let stop : Visit := ⟨call, ⟨[1, 0]⟩, fun _ => none⟩
    start.Evaluates env stop ∧ stop.outcome env = .error .removed ∧
      env.functions.get? "remove_property" = some TemplateOptions.removeProperty ∧
      (start.outcome env = .error .removed ∨ Visit.Absorbed env start stop) ∧
      ((∀ source policy, (Tree.expression ⟨start.expr, source, env⟩).expandNode policy start.context
          start.origin = .ok none) ∨ Visit.Absorbed env start stop) := by
  intro env call start stop
  have hto : start.Evaluates env stop :=
    .head (.item .here) (.single (.other rfl (by rintro ⟨⟩)))
  have hfunction : env.functions.get? "remove_property" = some TemplateOptions.removeProperty := rfl
  have hstop : stop.outcome env = .error .removed := Visit.outcome_removeProperty hfunction _ _ _
  have hkept := removal_omits_entry_unless_absorbed env hto
  exact ⟨hto, hstop, hfunction, hkept.1 hstop, hkept.2 hfunction ⟨_, rfl⟩⟩

/-- A disjunction is true although its left side gives up the entry, and the entry stays. -/
theorem disjunction_absorbs_removal :
    renderWith .default "\x7b\"k\": \"remove_property() || true\"\x7d" default (.object []) =
      .ok "\x7b\"k\":true\x7d" ∧
    (let env := TemplateOptions.default.environment []
    let call : Expr := .call ⟨0, 17⟩ none "remove_property" []
    let start : Visit := ⟨.binary ⟨0, 25⟩ .or call (.literal ⟨21, 25⟩ (.bool true)), default,
      fun _ => none⟩
    let stop : Visit := ⟨call, ⟨[0]⟩, fun _ => none⟩
    start.Evaluates env stop ∧ stop.outcome env = .error .removed ∧
      start.outcome env = .ok (.bool true)) := by
  refine ⟨by decide +kernel, .single (.first rfl), ?_, ?_⟩
  · exact Visit.outcome_removeProperty rfl _ _ _
  · rfl

end JsonTemplate
