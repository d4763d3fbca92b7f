/-
Evaluation with calls that fail less. `Relaxes D x x'` says that `x'` is the outcome `x`, unless
`x` is a failure of the sort `D`. Calls that are related so give related outcomes (`eval_relaxes`),
but for what an operator or a loop can hide: the left side of a logical operator stands for the
outcome when neither side decides, and a removal ends a loop that a failure would not
(`hidings`). There either nothing is relaxed, or every failure counts and nothing is removed.
-/
import JsonTemplate.Proofs.Names
import JsonTemplate.Proofs.Library

namespace JsonTemplate

/-- The second outcome is the first one, unless that is a failure of the sort `D`. -/
def Relaxes {α : Type} (D : Failure → Prop) (x x' : Outcome α) : Prop :=
  x' = x ∨ ∃ f, x = .error (.failed f) ∧ D f

namespace Relaxes

variable {α β : Type} {D : Failure → Prop}

theorem refl (x : Outcome α) : Relaxes D x x := .inl rfl

theorem of_eq {x x' : Outcome α} (h : x' = x) : Relaxes D x x' := .inl h

/-- A value is kept. -/
theorem ok {x x' : Outcome α} {a : α} (h : Relaxes D x x') (hx : x = .ok a) : x' = .ok a := by
  rcases h with h | ⟨f, hf, -⟩
  · exact h.trans hx
  · rw [hx] at hf
    cases hf

theorem mono {D' : Failure → Prop} {x x' : Outcome α} (h : Relaxes D x x')
    (hD : ∀ f, D f → D' f) : Relaxes D' x x' :=
  h.imp_right fun ⟨f, hf, hd⟩ => ⟨f, hf, hD f hd⟩

theorem bind {x x' : Outcome α} {k k' : α → Outcome β} (hx : Relaxes D x x')
    (hk : ∀ a, Relaxes D (k a) (k' a)) : Relaxes D (x >>= k) (x' >>= k') := by
  rcases hx with rfl | ⟨f, rfl, hd⟩
  · cases x' with
    | ok a => exact hk a
    | error i => exact refl _
  · exact .inr ⟨f, rfl, hd⟩

theorem located {x x' : Outcome α} (hspan : ∀ f span, D f → D (f.withSpan span))
    (h : Relaxes D x x') (span : Span) :
    Relaxes D (Outcome.located span x) (Outcome.located span x') := by
  rcases h with rfl | ⟨⟨cause, _ | s, beneath⟩, rfl, hd⟩
  · exact refl _
  · exact .inr ⟨_, rfl, hspan _ span hd⟩
  · exact .inr ⟨_, rfl, hd⟩

theorem condition {x x' : Outcome Value} (h : Relaxes D x x') (span : Span) :
    Relaxes D (Outcome.condition span x) (Outcome.condition span x') := by
  rcases h with rfl | ⟨f, rfl, hd⟩
  · exact refl _
  · exact .inr ⟨f, rfl, hd⟩

end Relaxes

/-! ## Logic -/

section Logical

variable {D : Failure → Prop} {decisive : Bool} {left left' : Outcome Bool}
  {right right' : Unit → Outcome Bool}

/-- Only the right side is relaxed, and a left side that was interrupted has failed. -/
theorem logical_relaxes_right (hright : Relaxes D (right ()) (right' ()))
    (hleft : right' () = right () ∨ ∀ i, left = .error i → ∃ f, i = .failed f ∧ D f) :
    Relaxes D (logical decisive left right) (logical decisive left right') := by
  unfold logical
  rcases hright with hright | ⟨f, hright, hd⟩
  · rw [hright]
    exact .refl _
  · cases left with
    | ok a =>
      dsimp only
      split
      · exact .refl _
      · rw [hright]
        exact .inr ⟨f, rfl, hd⟩
    | error i =>
      rw [hright] at hleft ⊢
      rcases hleft with hsame | hleft
      · rw [hsame]
        exact .refl _
      · obtain ⟨g, rfl, hg⟩ := hleft i rfl
        exact .inr ⟨g, rfl, hg⟩

theorem logical_relaxes (hleft : Relaxes D left left') (hright : Relaxes D (right ()) (right' ()))
    (hhiding : right' () = right () ∨ ∀ i, left = .error i → ∃ f, i = .failed f ∧ D f) :
    Relaxes D (logical decisive left right) (logical decisive left' right') := by
  rcases hleft with rfl | ⟨f, rfl, hd⟩
  · exact logical_relaxes_right hright hhiding
  · -- The left side may become anything, but a right side that decides has not changed.
    cases h : right () with
    | error i => exact .inr ⟨f, by simp [logical, h], hd⟩
    | ok b =>
      have h' := hright.ok h
      by_cases hb : b = decisive
      · refine .of_eq ?_
        cases left' <;> simp [logical, h, h', hb]
      · exact .inr ⟨f, by simp [logical, h, hb], hd⟩

end Logical

/-! ## Loops -/

namespace Loop

variable {D : Failure → Prop} {test test' : Step Bool} {image image' : Step Value}

theorem filter_relaxes (h : ∀ n v, Relaxes D (test n v) (test' n v)) :
    ∀ (items : List Value) (n : Nat), Relaxes D (filter test n items) (filter test' n items)
  | [], _ => .refl _
  | item :: rest, n =>
    (h n item).bind fun _ => (filter_relaxes h rest (n + 1)).bind fun _ => .refl _

theorem collect_relaxes (h : ∀ n v, Relaxes D (test n v) (test' n v))
    (himage : ∀ n v, Relaxes D (image n v) (image' n v)) : ∀ (items : List Value) (n : Nat),
      Relaxes D (collect test image n items) (collect test' image' n items)
  | [], _ => .refl _
  | item :: rest, n => by
    have hrest := collect_relaxes h himage rest (n + 1)
    refine (h n item).bind fun passes => ?_
    cases passes with
    | true => exact (himage n item).bind fun _ => hrest.bind fun _ => .refl _
    | false => exact hrest

theorem count_relaxes (h : ∀ n v, Relaxes D (test n v) (test' n v)) :
    ∀ (items : List Value) (n : Nat), Relaxes D (count test n items) (count test' n items)
  | [], _ => .refl _
  | item :: rest, n => (h n item).bind fun _ => (count_relaxes h rest (n + 1)).bind fun _ => .refl _

theorem decide_ne_removed (decisive : Bool) (h : ∀ n v, test n v ≠ .error .removed) :
    ∀ (items : List Value) (n : Nat), decide decisive test n items ≠ .error .removed
  | [], _ => nofun
  | item :: rest, n => by
    have hitem := h n item
    have hrest := decide_ne_removed decisive h rest (n + 1)
    rw [decide]
    split
    · split
      · intro h
        cases h
      · exact hrest
    · exact absurd ‹_› hitem
    · split
      · intro h
        split at h <;> cases h
      · exact absurd ‹_› hrest
      · intro h
        cases h

/-- Every failure counts and nothing is removed. -/
theorem decide_relaxes (decisive : Bool) (hall : ∀ f, D f)
    (h : ∀ n v, Relaxes D (test n v) (test' n v)) (hkept : ∀ n v, test n v ≠ .error .removed)
    (hkept' : ∀ n v, test' n v ≠ .error .removed) : ∀ (items : List Value) (n : Nat),
      Relaxes D (decide decisive test n items) (decide decisive test' n items)
  | [], _ => .refl _
  | item :: rest, n => by
    have hrest := decide_relaxes decisive hall h hkept hkept' rest (n + 1)
    have hremoved := decide_ne_removed decisive hkept rest (n + 1)
    cases hitem : test n item with
    | ok b =>
      simp only [decide, hitem, (h n item).ok hitem]
      split
      · exact .refl _
      · exact hrest
    | error i =>
      cases i with
      | removed => exact absurd hitem (hkept n item)
      | failed f =>
        -- A failed test leaves it to the rest to decide, whatever becomes of the test.
        cases hdecided : decide decisive test (n + 1) rest with
        | error i =>
          cases i with
          | removed => exact absurd hdecided hremoved
          | failed g => exact .inr ⟨f, by simp only [decide, hitem, hdecided], hall f⟩
        | ok b =>
          by_cases hb : b = decisive
          · refine .of_eq ?_
            have hdecided' := hrest.ok hdecided
            cases hitem' : test' n item with
            | ok b' =>
              by_cases hb' : b' = decisive <;>
                simp [decide, hitem, hitem', hdecided, hdecided', hb, hb']
            | error i =>
              cases i with
              | removed => exact absurd hitem' (hkept' n item)
              | failed g => simp [decide, hitem, hitem', hdecided, hdecided', hb]
          · exact .inr ⟨f, by simp [decide, hitem, hdecided, hb], hall f⟩

end Loop

/-! ## Expressions -/

namespace Expr

mutual

/-- Where an expression may hide what its parts do: the functions that are called by what may stand
for the outcome, and by what may be passed over. -/
def hidings : Expr → List (List String × List String)
  | literal _ _ => []
  | list _ items => hidingsOfItems items
  | dict _ entries => hidingsOfEntries entries
  | ident _ _ => []
  | select _ operand _ => operand.hidings
  | index _ operand i => operand.hidings ++ i.hidings
  | call _ target _ args => hidingsOfOptional target ++ hidingsOfItems args
  | has _ operand _ => operand.hidings
  | quantify _ q range _ test =>
    (match q with
      | .all | .any => [(test.calls, test.calls)]
      | .filter | .one => []) ++ range.hidings ++ test.hidings
  | collect _ range _ test image => range.hidings ++ hidingsOfOptional test ++ image.hidings
  | conditional _ condition yes no => condition.hidings ++ yes.hidings ++ no.hidings
  | binary _ op left right =>
    (match op.decisive? with
      | some _ => [(left.calls, right.calls)]
      | none => []) ++ left.hidings ++ right.hidings
  | unary _ _ operand => operand.hidings

def hidingsOfOptional : Option Expr → List (List String × List String)
  | none => []
  | some e => e.hidings

def hidingsOfItems : List Expr → List (List String × List String)
  | [] => []
  | e :: rest => e.hidings ++ hidingsOfItems rest

def hidingsOfEntries : List (Expr × Expr) → List (List String × List String)
  | [] => []
  | (key, e) :: rest => key.hidings ++ e.hidings ++ hidingsOfEntries rest

end

end Expr

/-- A call of a function never asks for a removal. -/
def Environment.NeverRemoves (env : Environment) (name : String) : Prop :=
  ∀ origin receiver args, env.call name origin receiver args ≠ .error .removed

/-- Two environments whose calls are related, but for what may be hidden. -/
structure Relaxed (D : Failure → Prop) (env env' : Environment)
    (hidings : List (List String × List String)) : Prop where
  span : ∀ f span, D f → D (f.withSpan span)
  call : ∀ name origin receiver args,
    Relaxes D (env.call name origin receiver args) (env'.call name origin receiver args)
  hidden : ∀ pair ∈ hidings, (∀ name ∈ pair.2, env'.call name = env.call name) ∨
    (∀ f, D f) ∧ ∀ name ∈ pair.1, env.NeverRemoves name ∧ env'.NeverRemoves name

theorem Relaxed.mono {D : Failure → Prop} {env env' : Environment}
    {hidings hidings' : List (List String × List String)} (h : Relaxed D env env' hidings)
    (hsub : hidings' ⊆ hidings) : Relaxed D env env' hidings' :=
  ⟨h.span, h.call, fun pair hmem => h.hidden pair (hsub hmem)⟩

/-- What holds of every interrupt but a removal. -/
theorem failed_invariant : Invariant (fun _ => True) (· ≠ Interrupt.removed) where
  literal _ := trivial
  list _ := by simp
  ofMap _ _ := trivial
  record _ _ _ := trivial
  entry _ _ _ _ _ := trivial
  get _ face key _ _ := by cases face.get key <;> simp [Satisfies]
  keys _ _ _ _ _ _ := trivial
  failed _ _ _ := nofun
  withSpan _ _ _ := nofun

/-- No removal comes of an expression that calls nothing that removes. -/
theorem Expr.eval_ne_removed {env : Environment} {e : Expr}
    (h : ∀ name ∈ e.calls, env.NeverRemoves name) (origin : Origin) (context : Context) :
    e.eval env origin context ≠ .error .removed := by
  have hkeeps : Keeps (fun _ => True) (· ≠ Interrupt.removed) env context e.calls e.free := by
    refine ⟨fun name hmem origin receiver args _ _ => ?_, fun x _ => ?_⟩
    · have hcall := h name hmem origin receiver args
      cases hc : env.call name origin receiver args with
      | ok v => trivial
      | error i =>
        rw [hc] at hcall
        exact fun hi => hcall (hi ▸ rfl)
    · unfold Context.resolve
      split
      · trivial
      · intro h
        cases h
  exact (eval_keeps failed_invariant e origin hkeeps).ne_error (· rfl)

/-- An expression whose calls are the same in both environments has the same outcome. -/
theorem Expr.eval_of_calls {env env' : Environment} {e : Expr}
    (h : ∀ name ∈ e.calls, env'.call name = env.call name) (origin : Origin) (context : Context) :
    e.eval env' origin context = e.eval env origin context := by
  refine (eval_congr e (S := Eq) rfl ⟨fun _ _ part hab => hab ▸ rfl, ?_, fun _ _ => rfl⟩).symm
  rintro name hmem origin _ rfl receiver args
  rw [h name hmem]

@[simp] theorem Outcome.condition_error {span : Span} {i : Interrupt} :
    Outcome.condition span (.error i) = .error i := rfl

@[simp] theorem Outcome.condition_eq_removed {span : Span} {x : Outcome Value} :
    x.condition span = .error .removed ↔ x = .error .removed := by
  rcases x with i | v
  · simp [Outcome.condition]
  · cases v <;> simp [Outcome.condition]

namespace Expr

section Relaxed

variable {D : Failure → Prop} {env env' : Environment}

/-- A loop with a test that is relaxed, but where that may be hidden. -/
theorem run_relaxes (q : Quantifier) {test test' : Loop.Step Bool}
    (h : ∀ n v, Relaxes D (test n v) (test' n v))
    (hhidden : q = .all ∨ q = .any → test' = test ∨ (∀ f, D f) ∧
      (∀ n v, test n v ≠ .error .removed) ∧ ∀ n v, test' n v ≠ .error .removed)
    (items : List Value) : Relaxes D (q.run test items) (q.run test' items) := by
  have hdecide (decisive : Bool) (hq : q = .all ∨ q = .any) :
      Relaxes D (Loop.decide decisive test 0 items) (Loop.decide decisive test' 0 items) := by
    rcases hhidden hq with rfl | ⟨hall, hkept, hkept'⟩
    · exact .refl _
    · exact Loop.decide_relaxes decisive hall h hkept hkept' items 0
  cases q with
  | filter => exact (Loop.filter_relaxes h items 0).bind fun _ => .refl _
  | all => exact (hdecide false (.inl rfl)).bind fun _ => .refl _
  | any => exact (hdecide true (.inr rfl)).bind fun _ => .refl _
  | one => exact (Loop.count_relaxes h items 0).bind fun _ => .refl _

mutual

/-- **An expression is relaxed with the calls it makes.** -/
theorem eval_relaxes : ∀ (e : Expr) (origin : Origin) (context : Context),
    Relaxed D env env' e.hidings →
    Relaxes D (e.eval env origin context) (e.eval env' origin context)
  | literal _ _, _, _, _ => .refl _
  | list span items, origin, context, h => by
    rw [eval, eval]
    exact ((evalItems_relaxes items origin 0 context h).bind fun _ => .refl _).located h.span span
  | dict span entries, origin, context, h => by
    rw [eval, eval]
    exact ((evalEntries_relaxes entries origin 0 context h).bind fun _ => .refl _).located h.span
      span
  | ident _ _, _, _, _ => by
    rw [eval, eval]
    exact .refl _
  | select span operand _, _, context, h => by
    rw [eval, eval]
    exact ((eval_relaxes operand _ context h).bind fun _ => .refl _).located h.span span
  | index span operand i, _, context, h => by
    rw [eval, eval]
    exact ((eval_relaxes operand _ context (h.mono (by simp [hidings]))).bind fun _ =>
      (eval_relaxes i _ context (h.mono (by simp [hidings]))).bind fun _ => .refl _).located h.span
        span
  | call span target function args, origin, context, h => by
    have htarget := evalOptional_relaxes target (origin.child 0) context
      (h.mono (by simp [hidings]))
    have hargs := evalItems_relaxes args origin 2 context (h.mono (by simp [hidings]))
    rw [eval, eval]
    exact (htarget.bind fun receiver => hargs.bind fun values =>
      h.call function (origin.child 1) receiver values).located h.span span
  | has span operand _, _, context, h => by
    rw [eval, eval]
    exact ((eval_relaxes operand _ context h).bind fun _ => .refl _).located h.span span
  | quantify span q range name test, origin, context, h => by
    have hrange := eval_relaxes range (origin.child 0) context (h.mono (by simp [hidings]))
    have htest (n : Nat) (v : Value) := (eval_relaxes test (origin.child (n + 1))
      (context.bind name v) (h.mono (by simp [hidings]))).condition test.span
    rw [eval, eval]
    refine (hrange.bind fun v => (Relaxes.refl (v.range range.span)).bind fun items =>
      run_relaxes q htest (fun hq => ?_) items).located h.span span
    have hmem : (test.calls, test.calls) ∈ hidings (quantify span q range name test) := by
      rcases hq with rfl | rfl <;> simp [hidings]
    rcases h.hidden _ hmem with hsame | ⟨hall, hnever⟩
    · refine .inl ?_
      funext n v
      rw [eval_of_calls hsame]
    · refine .inr ⟨hall, fun n v => ?_, fun n v => ?_⟩
      · have hleft := eval_ne_removed (e := test) fun name hm => (hnever name hm).1
        exact mt Outcome.condition_eq_removed.mp (hleft _ _)
      · have hright := eval_ne_removed (e := test) fun name hm => (hnever name hm).2
        exact mt Outcome.condition_eq_removed.mp (hright _ _)
  | collect span range name test image, origin, context, h => by
    have hrange := eval_relaxes range (origin.child 0) context (h.mono (by simp [hidings]))
    have htest (n : Nat) (v : Value) := evalTest_relaxes test (origin.child (2 * n + 1))
      (context.bind name v) (h.mono (by simp [hidings]))
    have himage (n : Nat) (v : Value) := eval_relaxes image (origin.child (2 * n + 2))
      (context.bind name v) (h.mono (by simp [hidings]))
    rw [eval, eval]
    exact (hrange.bind fun v => (Relaxes.refl (v.range range.span)).bind fun items =>
      (Loop.collect_relaxes htest himage items 0).bind fun _ => .refl _).located h.span span
  | conditional span condition yes no, origin, context, h => by
    have hcondition := (eval_relaxes condition (origin.child 0) context
      (h.mono (by simp [hidings]))).condition condition.span
    rw [eval, eval]
    refine (hcondition.bind fun b => ?_).located h.span span
    cases b with
    | true => exact eval_relaxes yes _ context (h.mono (by simp [hidings]))
    | false => exact eval_relaxes no _ context (h.mono (by simp [hidings]))
  | binary span op left right, origin, context, h => by
    have hleft := eval_relaxes left (origin.child 0) context (h.mono (by simp [hidings]))
    have hright := eval_relaxes right (origin.child 1) context (h.mono (by simp [hidings]))
    rw [eval, eval]
    refine Relaxes.located h.span ?_ span
    unfold BinaryOp.outcome
    cases hdecisive : op.decisive? with
    | none => exact hleft.bind fun a => hright.bind fun b => .refl _
    | some decisive =>
      refine (logical_relaxes (hleft.condition _) (hright.condition _) ?_).bind fun _ => .refl _
      rcases h.hidden (left.calls, right.calls) (by simp [hidings, hdecisive]) with
        hsame | ⟨hall, hnever⟩
      · rw [eval_of_calls hsame]
        exact .inl rfl
      · refine .inr fun i hi => ?_
        cases i with
        | failed f => exact ⟨f, rfl, hall f⟩
        | removed =>
          exact absurd (Outcome.condition_eq_removed.mp hi)
            (eval_ne_removed (fun name hm => (hnever name hm).1) _ _)
  | unary span _ operand, _, context, h => by
    rw [eval, eval]
    exact ((eval_relaxes operand _ context h).bind fun _ => .refl _).located h.span span

theorem evalOptional_relaxes : ∀ (e : Option Expr) (origin : Origin) (context : Context),
    Relaxed D env env' (hidingsOfOptional e) →
    Relaxes D (evalOptional env e origin context) (evalOptional env' e origin context)
  | none, _, _, _ => .refl _
  | some e, origin, context, h => (eval_relaxes e origin context h).bind fun _ => .refl _

theorem evalTest_relaxes : ∀ (e : Option Expr) (origin : Origin) (context : Context),
    Relaxed D env env' (hidingsOfOptional e) →
    Relaxes D (evalTest env e origin context) (evalTest env' e origin context)
  | none, _, _, _ => .refl _
  | some e, origin, context, h => (eval_relaxes e origin context h).condition e.span

theorem evalItems_relaxes : ∀ (items : List Expr) (origin : Origin) (part : Nat)
    (context : Context), Relaxed D env env' (hidingsOfItems items) →
    Relaxes D (evalItems env items origin part context) (evalItems env' items origin part context)
  | [], _, _, _, _ => .refl _
  | e :: rest, origin, part, context, h => by
    have hfirst := eval_relaxes e (origin.child part) context (h.mono (by simp [hidingsOfItems]))
    have hrest := evalItems_relaxes rest origin (part + 1) context
      (h.mono (by simp [hidingsOfItems]))
    rw [evalItems, evalItems]
    exact hfirst.bind fun _ => hrest.bind fun _ => .refl _

theorem evalEntries_relaxes : ∀ (entries : List (Expr × Expr)) (origin : Origin) (part : Nat)
    (context : Context), Relaxed D env env' (hidingsOfEntries entries) →
    Relaxes D (evalEntries env entries origin part context)
      (evalEntries env' entries origin part context)
  | [], _, _, _, _ => .refl _
  | (key, e) :: rest, origin, part, context, h => by
    have hkey := eval_relaxes key (origin.child part) context
      (h.mono (by simp [hidingsOfEntries]))
    have hvalue := eval_relaxes e (origin.child (part + 1)) context
      (h.mono (by simp [hidingsOfEntries]))
    have hrest := evalEntries_relaxes rest origin (part + 2) context
      (h.mono (by simp [hidingsOfEntries]))
    rw [evalEntries, evalEntries]
    exact hkey.bind fun k => (Relaxes.refl (Outcome.ofResult k.mapKey)).bind fun _ =>
      hvalue.bind fun _ => hrest.bind fun _ => .refl _

end

end Relaxed

end Expr

end JsonTemplate
