/-
Places in the source do not matter but to those who read a failure: an expression without its spans
gives the same value, is given up alike, or fails alike but for the span (`eval_bare`).
-/
import JsonTemplate.Eval.Basic
import JsonTemplate.Proofs.Grammar

namespace JsonTemplate

/-- A failure without the span it points at. -/
def Failure.unplaced (f : Failure) : Failure := { f with span := none }

def Interrupt.unplaced : Interrupt → Interrupt
  | removed => removed
  | failed f => failed f.unplaced

/-- An outcome whose failure points nowhere. -/
def Outcome.unplaced {α : Type} : Outcome α → Outcome α
  | .ok a => .ok a
  | .error i => .error i.unplaced

namespace Outcome

variable {α β : Type}

theorem unplaced_located (span : Span) (x : Outcome α) :
    (located span x).unplaced = x.unplaced := by
  rcases x with (_ | ⟨cause, _ | s, beneath⟩) | a <;> rfl

/-- Outcomes that are the same but for spans are the same value or two interrupts. -/
theorem unplaced_eq {x y : Outcome α} (h : x.unplaced = y.unplaced) :
    (∃ a, x = .ok a ∧ y = .ok a) ∨
      ∃ i j, x = .error i ∧ y = .error j ∧ i.unplaced = j.unplaced := by
  cases x <;> cases y <;> simp_all [unplaced]

theorem eq_ok_of_unplaced {x y : Outcome α} {a : α} (h : x.unplaced = y.unplaced) (hx : x = .ok a) :
    y = .ok a := by
  subst hx
  rcases unplaced_eq h with ⟨b, hb, hy⟩ | ⟨i, j, hi, -, -⟩
  · cases hb
    exact hy
  · cases hi

theorem unplaced_bind {x y : Outcome α} {f g : α → Outcome β} (h : x.unplaced = y.unplaced)
    (hfg : ∀ a, (f a).unplaced = (g a).unplaced) : (x >>= f).unplaced = (y >>= g).unplaced := by
  rcases unplaced_eq h with ⟨a, rfl, rfl⟩ | ⟨i, j, rfl, rfl, hij⟩
  · exact hfg a
  · exact congrArg Except.error hij

theorem unplaced_condition (span span' : Span) {x y : Outcome Value} (h : x.unplaced = y.unplaced) :
    (x.condition span).unplaced = (y.condition span').unplaced := by
  rcases unplaced_eq h with ⟨v, rfl, rfl⟩ | ⟨i, j, rfl, rfl, hij⟩
  · cases v <;> rfl
  · exact congrArg Except.error hij

theorem unplaced_range (span span' : Span) (v : Value) :
    (v.range span).unplaced = (v.range span').unplaced := by
  rw [Value.range, Value.range]
  cases v.rangeItems <;> rfl

/-! ## Operators and loops -/

theorem unplaced_logical (decisive : Bool) {x y : Outcome Bool} {f g : Unit → Outcome Bool}
    (h : x.unplaced = y.unplaced) (hfg : (f ()).unplaced = (g ()).unplaced) :
    (logical decisive x f).unplaced = (logical decisive y g).unplaced := by
  rcases unplaced_eq h with ⟨a, rfl, rfl⟩ | ⟨i, j, rfl, rfl, hij⟩ <;>
    rcases unplaced_eq hfg with ⟨b, hf, hg⟩ | ⟨k, l, hf, hg, hkl⟩ <;>
    simp only [logical, hf, hg]
  · by_cases ha : a = decisive
    · rw [if_pos ha, if_pos ha]
    · rw [if_neg ha, if_neg ha]
      exact congrArg Except.error hkl
  · by_cases hb : b = decisive
    · rw [if_pos hb, if_pos hb]
    · rw [if_neg hb, if_neg hb]
      exact congrArg Except.error hij
  · exact congrArg Except.error hij

theorem unplaced_outcome (op : BinaryOp) (left right left' right' : Span) {x y : Outcome Value}
    {f g : Unit → Outcome Value} (h : x.unplaced = y.unplaced)
    (hfg : (f ()).unplaced = (g ()).unplaced) :
    (op.outcome left right x f).unplaced = (op.outcome left' right' y g).unplaced := by
  unfold BinaryOp.outcome
  split
  · exact unplaced_bind (unplaced_logical _ (unplaced_condition _ _ h) (unplaced_condition _ _ hfg))
      fun _ => rfl
  · exact unplaced_bind h fun a => unplaced_bind hfg fun b => rfl

section Loops

variable {test test' : Loop.Step Bool} {image image' : Loop.Step Value}

theorem unplaced_filter (htest : ∀ n v, (test n v).unplaced = (test' n v).unplaced) :
    ∀ (items : List Value) (number : Nat),
      (Loop.filter test number items).unplaced = (Loop.filter test' number items).unplaced
  | [], _ => rfl
  | item :: rest, number => unplaced_bind (htest number item) fun _ =>
    unplaced_bind (unplaced_filter htest rest (number + 1)) fun _ => rfl

theorem unplaced_collect (htest : ∀ n v, (test n v).unplaced = (test' n v).unplaced)
    (himage : ∀ n v, (image n v).unplaced = (image' n v).unplaced) :
    ∀ (items : List Value) (number : Nat), (Loop.collect test image number items).unplaced =
      (Loop.collect test' image' number items).unplaced
  | [], _ => rfl
  | item :: rest, number => by
    have hrest := unplaced_collect htest himage rest (number + 1)
    refine unplaced_bind (htest number item) fun keep => ?_
    cases keep with
    | true => exact unplaced_bind (himage number item) fun _ => unplaced_bind hrest fun _ => rfl
    | false => exact hrest

theorem unplaced_count (htest : ∀ n v, (test n v).unplaced = (test' n v).unplaced) :
    ∀ (items : List Value) (number : Nat),
      (Loop.count test number items).unplaced = (Loop.count test' number items).unplaced
  | [], _ => rfl
  | item :: rest, number => unplaced_bind (htest number item) fun _ =>
    unplaced_bind (unplaced_count htest rest (number + 1)) fun _ => rfl

theorem unplaced_decide (decisive : Bool)
    (htest : ∀ n v, (test n v).unplaced = (test' n v).unplaced) :
    ∀ (items : List Value) (number : Nat), (Loop.decide decisive test number items).unplaced =
      (Loop.decide decisive test' number items).unplaced
  | [], _ => rfl
  | item :: rest, number => by
    have hrest := unplaced_decide decisive htest rest (number + 1)
    rw [Loop.decide, Loop.decide]
    rcases unplaced_eq (htest number item) with ⟨b, hf, hg⟩ | ⟨i, j, hf, hg, hij⟩
    · simp only [hf, hg]
      by_cases hb : b = decisive
      · rw [if_pos hb, if_pos hb]
      · rw [if_neg hb, if_neg hb]
        exact hrest
    · cases i with
      | removed =>
        cases j with
        | removed => simp only [hf, hg]
        | failed g => cases hij
      | failed f =>
        cases j with
        | removed => cases hij
        | failed g =>
          -- The rest decides, or else the failure of this item counts.
          rcases unplaced_eq hrest with ⟨b, hf', hg'⟩ | ⟨k, l, hf', hg', hkl⟩
          · simp only [hf, hg, hf', hg']
            by_cases hb : b = decisive
            · rw [if_pos hb, if_pos hb]
            · rw [if_neg hb, if_neg hb]
              exact congrArg Except.error hij
          · cases k <;> cases l <;> simp only [hf, hg, hf', hg']
            · cases hkl
            · cases hkl
            · exact congrArg Except.error hij

theorem unplaced_run (q : Quantifier) (htest : ∀ n v, (test n v).unplaced = (test' n v).unplaced)
    (items : List Value) : (q.run test items).unplaced = (q.run test' items).unplaced := by
  cases q with
  | filter => exact unplaced_bind (unplaced_filter htest items 0) fun _ => rfl
  | all => exact unplaced_bind (unplaced_decide false htest items 0) fun _ => rfl
  | any => exact unplaced_bind (unplaced_decide true htest items 0) fun _ => rfl
  | one => exact unplaced_bind (unplaced_count htest items 0) fun _ => rfl

end Loops

end Outcome

/-! ## Expressions -/

namespace Expr

open Outcome

section

variable {env : Environment}

mutual

/-- **An expression has the same outcome without its spans, but for the span of a failure.** -/
theorem eval_bare : ∀ (e : Expr) (origin : Origin) (context : Context),
    (e.bare.eval env origin context).unplaced = (e.eval env origin context).unplaced
  | literal _ _, _, _ => rfl
  | list _ items, origin, context => by
    rw [bare, eval, eval, unplaced_located, unplaced_located]
    exact unplaced_bind (evalItems_bare items origin 0 context) fun _ => rfl
  | dict _ entries, origin, context => by
    rw [bare, eval, eval, unplaced_located, unplaced_located]
    exact unplaced_bind (evalEntries_bare entries origin 0 context) fun _ => rfl
  | ident _ name, origin, context => by
    rw [bare, eval, eval, unplaced_located, unplaced_located]
  | select _ operand field, origin, context => by
    rw [bare, eval, eval, unplaced_located, unplaced_located]
    exact unplaced_bind (eval_bare operand _ context) fun _ => rfl
  | index _ operand i, origin, context => by
    rw [bare, eval, eval, unplaced_located, unplaced_located]
    exact unplaced_bind (eval_bare operand _ context) fun _ =>
      unplaced_bind (eval_bare i _ context) fun _ => rfl
  | call _ target function args, origin, context => by
    rw [bare, eval, eval, unplaced_located, unplaced_located]
    exact unplaced_bind (evalOptional_bare target _ context) fun _ =>
      unplaced_bind (evalItems_bare args origin 2 context) fun _ => rfl
  | has _ operand field, origin, context => by
    rw [bare, eval, eval, unplaced_located, unplaced_located]
    exact unplaced_bind (eval_bare operand _ context) fun _ => rfl
  | quantify _ q range name test, origin, context => by
    rw [bare, eval, eval, unplaced_located, unplaced_located]
    exact unplaced_bind (eval_bare range _ context) fun v =>
      unplaced_bind (unplaced_range _ _ v) fun items => unplaced_run q (fun number item =>
        unplaced_condition _ _ (eval_bare test _ _)) items
  | collect _ range name test image, origin, context => by
    rw [bare, eval, eval, unplaced_located, unplaced_located]
    exact unplaced_bind (eval_bare range _ context) fun v =>
      unplaced_bind (unplaced_range _ _ v) fun items => unplaced_bind
        (unplaced_collect (fun number item => evalTest_bare test _ _)
          (fun number item => eval_bare image _ _) items 0) fun _ => rfl
  | conditional _ condition yes no, origin, context => by
    rw [bare, eval, eval, unplaced_located, unplaced_located]
    refine unplaced_bind (unplaced_condition _ _ (eval_bare condition _ context)) fun b => ?_
    cases b with
    | true => exact eval_bare yes _ context
    | false => exact eval_bare no _ context
  | binary _ op left right, origin, context => by
    rw [bare, eval, eval, unplaced_located, unplaced_located]
    exact unplaced_outcome op _ _ _ _ (eval_bare left _ context) (eval_bare right _ context)
  | unary _ op operand, origin, context => by
    rw [bare, eval, eval, unplaced_located, unplaced_located]
    exact unplaced_bind (eval_bare operand _ context) fun _ => rfl

theorem evalOptional_bare : ∀ (e : Option Expr) (origin : Origin) (context : Context),
    (evalOptional env (bareOptional e) origin context).unplaced =
      (evalOptional env e origin context).unplaced
  | none, _, _ => rfl
  | some e, origin, context => unplaced_bind (eval_bare e origin context) fun _ => rfl

theorem evalTest_bare : ∀ (e : Option Expr) (origin : Origin) (context : Context),
    (evalTest env (bareOptional e) origin context).unplaced =
      (evalTest env e origin context).unplaced
  | none, _, _ => rfl
  | some e, origin, context => unplaced_condition _ _ (eval_bare e origin context)

theorem evalItems_bare : ∀ (items : List Expr) (origin : Origin) (part : Nat) (context : Context),
    (evalItems env (bareItems items) origin part context).unplaced =
      (evalItems env items origin part context).unplaced
  | [], _, _, _ => rfl
  | e :: rest, origin, part, context =>
    unplaced_bind (eval_bare e (origin.child part) context) fun _ =>
      unplaced_bind (evalItems_bare rest origin (part + 1) context) fun _ => rfl

theorem evalEntries_bare : ∀ (entries : List (Expr × Expr)) (origin : Origin) (part : Nat)
    (context : Context), (evalEntries env (bareEntries entries) origin part context).unplaced =
      (evalEntries env entries origin part context).unplaced
  | [], _, _, _ => rfl
  | (key, e) :: rest, origin, part, context => by
    rw [bareEntries, evalEntries, evalEntries]
    exact unplaced_bind (eval_bare key _ context) fun _ => unplaced_bind rfl fun _ =>
      unplaced_bind (eval_bare e _ context) fun _ =>
        unplaced_bind (evalEntries_bare rest origin (part + 2) context) fun _ => rfl

end

/-- Expressions that differ in spans only give the same values. -/
theorem eval_of_bare {e e' : Expr} (h : e'.bare = e.bare) {origin : Origin} {context : Context}
    {v : Value} (hv : e.eval env origin context = .ok v) : e'.eval env origin context = .ok v := by
  refine eq_ok_of_unplaced ?_ hv
  rw [← eval_bare e, ← eval_bare e', h]

theorem evalItems_of_bare {items items' : List Expr} (h : bareItems items' = bareItems items)
    {origin : Origin} {part : Nat} {context : Context} {values : List Value}
    (hvalues : evalItems env items origin part context = .ok values) :
    evalItems env items' origin part context = .ok values := by
  refine eq_ok_of_unplaced ?_ hvalues
  rw [← evalItems_bare items, ← evalItems_bare items', h]

end

end Expr

end JsonTemplate
