/-
Loops as chains of logical operators. A logical operator is associative, failures included
(`logical_assoc`), so a loop that looks for a decisive item has the outcome of the chain over its
tests from the left (`Loop.decide_eq_foldl`). It follows which failure is that of the loop, and that
one loop is the other one of the negated test (`quantifiers_fold_logical_operators`).
-/
import JsonTemplate.Proofs.Logic
import JsonTemplate.Proofs.Relaxation

namespace JsonTemplate

open Value (Like)

/-! ## Chains -/

section Chain

variable {decisive : Bool}

theorem logical_assoc (x y z : Outcome Bool) :
    logical decisive (logical decisive x fun _ => y) (fun _ => z) =
      logical decisive x fun _ => logical decisive y fun _ => z := by
  rcases x with i | a <;> rcases y with j | b <;> rcases z with k | c
  · rfl
  · by_cases hc : c = decisive <;> simp [logical, hc]
  · by_cases hb : b = decisive <;> simp [logical, hb]
  · by_cases hb : b = decisive <;> by_cases hc : c = decisive <;> simp [logical, hb, hc]
  · by_cases ha : a = decisive <;> simp [logical, ha]
  · by_cases ha : a = decisive <;> by_cases hc : c = decisive <;> simp [logical, ha, hc]
  · by_cases ha : a = decisive <;> by_cases hb : b = decisive <;> simp [logical, ha, hb]
  · by_cases ha : a = decisive <;> by_cases hb : b = decisive <;> by_cases hc : c = decisive <;>
      simp [logical, ha, hb, hc]

@[simp] theorem logical_indecisive_left (x : Outcome Bool) :
    logical decisive (.ok !decisive) (fun _ => x) = x := by
  rcases x with i | b
  · cases decisive <;> rfl
  · cases decisive <;> cases b <;> rfl

@[simp] theorem logical_indecisive_right (x : Outcome Bool) :
    logical decisive x (fun _ => .ok !decisive) = x := by
  rcases x with i | b
  · cases decisive <;> rfl
  · cases decisive <;> cases b <;> rfl

/-- The outcome of a logical operator over any number of conditions, from the left. -/
def logicalChain (decisive : Bool) (conditions : List (Outcome Bool)) : Outcome Bool :=
  conditions.foldl (fun x y => logical decisive x fun _ => y) (.ok !decisive)

theorem logicalChain_cons (x : Outcome Bool) (rest : List (Outcome Bool)) :
    logicalChain decisive (x :: rest) = logical decisive x fun _ => logicalChain decisive rest := by
  let op (x y : Outcome Bool) : Outcome Bool := logical decisive x fun _ => y
  have : Std.Associative op := ⟨logical_assoc⟩
  have hrest : rest.foldl op (op x (.ok !decisive)) = op x (rest.foldl op (.ok !decisive)) :=
    List.foldl_assoc
  rw [show op x (.ok !decisive) = x from logical_indecisive_right x] at hrest
  rw [logicalChain, List.foldl_cons, logical_indecisive_left]
  exact hrest

/-- An interrupt of a chain is that of the first condition that has one. -/
theorem logicalChain_eq_error {i : Interrupt} : ∀ {conditions : List (Outcome Bool)},
    logicalChain decisive conditions = .error i →
      ∃ (passed : List Bool) (rest : List (Outcome Bool)),
        conditions = passed.map .ok ++ .error i :: rest
  | [], h => by cases h
  | x :: conditions, h => by
    rw [logicalChain_cons] at h
    rcases logical_eq_error.mp h with ⟨rfl, -⟩ | ⟨rfl, hrest⟩
    · exact ⟨[], conditions, rfl⟩
    · obtain ⟨passed, rest, rfl⟩ := logicalChain_eq_error hrest
      exact ⟨(!decisive) :: passed, rest, rfl⟩

end Chain

@[simp] theorem Outcome.condition_bool (x : Outcome Bool) (span : Span) :
    Outcome.condition span (x.map Value.bool) = x := by
  cases x <;> rfl

/-- What a logical operator makes of a boolean and any number of further operands at a span, one
after the other from the left. -/
def BinaryOp.chain (op : BinaryOp) (span : Span) (start : Bool)
    (operands : List (Outcome Value)) : Outcome Value :=
  operands.foldl (fun left right => op.outcome span span left fun _ => right) (.ok (.bool start))

theorem BinaryOp.chain_eq {op : BinaryOp} {decisive : Bool} (hop : op.decisive? = some decisive)
    (span : Span) (operands : List (Outcome Value)) :
    op.chain span (!decisive) operands =
      (logicalChain decisive (operands.map (·.condition span))).map Value.bool := by
  have hstep (x : Outcome Bool) (y : Outcome Value) :
      op.outcome span span (x.map Value.bool) (fun _ => y) =
        (logical decisive x fun _ => y.condition span).map Value.bool := by
    simp only [outcome, hop, Outcome.condition_bool]
    rfl
  have hchain (x : Outcome Bool) :
      operands.foldl (fun left right => op.outcome span span left fun _ => right)
          (x.map Value.bool) =
        (operands.foldl (fun x y => logical decisive x fun _ => y.condition span) x).map
          Value.bool := List.foldl_hom _ hstep
  rw [logicalChain, List.foldl_map, ← hchain]
  rfl

theorem BinaryOp.chain_eq_error {op : BinaryOp} {decisive : Bool} {span : Span}
    {operands : List (Outcome Value)} {i : Interrupt} (hop : op.decisive? = some decisive)
    (h : op.chain span (!decisive) operands = .error i) :
    ∃ (passed : List Bool) (rest : List (Outcome Bool)),
      operands.map (·.condition span) = passed.map .ok ++ .error i :: rest := by
  rw [chain_eq hop] at h
  cases hx : logicalChain decisive (operands.map (·.condition span)) with
  | ok b =>
    rw [hx] at h
    cases h
  | error j =>
    rw [hx] at h
    cases h
    exact logicalChain_eq_error hx

/-! ## Loops -/

/-- The item that ends a loop at once. -/
def Quantifier.decisive? : Quantifier → Option Bool
  | any => some true
  | all => some false
  | filter | one => none

theorem Quantifier.run_of_decisive {q : Quantifier} {decisive : Bool}
    (hq : q.decisive? = some decisive) (test : Loop.Step Bool) (items : List Value) :
    q.run test items = (Loop.decide decisive test 0 items).map Value.bool := by
  cases q <;> cases hq <;> rfl

/-- Where nothing is removed a loop decides like the operator. -/
theorem Loop.decide_eq_logicalChain (decisive : Bool) (test : Step Bool) :
    ∀ (items : List Value) (n : Nat),
      (∀ x ∈ (items.zipIdx n).map fun p => test p.2 p.1, x ≠ .error .removed) →
      decide decisive test n items =
        logicalChain decisive ((items.zipIdx n).map fun p => test p.2 p.1)
  | [], _, _ => rfl
  | item :: rest, n, h => by
    rw [List.zipIdx_cons, List.map_cons, List.forall_mem_cons] at h
    have hrest := decide_eq_logicalChain decisive test rest (n + 1) h.2
    -- A removal would be that of a test, so after a failed one the rest still decides.
    have hkept : decide decisive test (n + 1) rest ≠ .error .removed := fun hremoved => by
      obtain ⟨passed, others, hconditions⟩ := logicalChain_eq_error (hrest.symm.trans hremoved)
      exact h.2 (.error .removed) (by simp [hconditions]) rfl
    rw [List.zipIdx_cons, List.map_cons, logicalChain_cons, ← hrest, decide]
    generalize decide decisive test (n + 1) rest = y at hkept
    have hitem := h.1
    rcases hx : test n item with (_ | f) | a
    · exact absurd hx hitem
    · rcases y with (_ | g) | b
      · exact absurd rfl hkept
      · rfl
      · rfl
    · rcases y with i | b
      · rfl
      · cases decisive <;> cases a <;> cases b <;> rfl

/-! ## Failures of a loop -/

theorem Value.range_placed (span : Span) (v : Value) :
    Satisfies (fun _ => True) Interrupt.Placed (v.range span) := by
  unfold Value.range
  split
  · trivial
  · exact rfl

theorem Quantifier.run_placed (q : Quantifier) {test : Loop.Step Bool}
    (h : ∀ n v, Satisfies (fun _ => True) Interrupt.Placed (test n v)) (items : List Value) :
    Satisfies (fun _ => True) Interrupt.Placed (q.run test items) := by
  have htest (n : Nat) (v : Value) (_ : True) := h n v
  have hitems : ∀ v ∈ items, True := fun _ _ => trivial
  cases q with
  | filter => exact (Closed.filter htest 0 hitems).bind fun _ _ => trivial
  | all | any => exact (Closed.decide htest 0 hitems).bind fun _ _ => trivial
  | one => exact (Closed.count htest 0 hitems).bind fun _ _ => trivial

namespace Expr

/-- A loop adds nothing to the failures of its range and its test, which point into these. -/
theorem eval_quantify (env : Environment) (span : Span) (q : Quantifier) (range : Expr)
    (name : String) (test : Expr) (origin : Origin) (context : Context) :
    (quantify span q range name test).eval env origin context = (do
      let items ← (← range.eval env (origin.child 0) context).range range.span
      q.run (fun number item => (test.eval env (origin.child (number + 1))
        (context.bind name item)).condition test.span) items) := by
  rw [eval]
  refine Outcome.located_of_placed ((eval_placed env range _ context).bind fun v _ =>
    (Value.range_placed range.span v).bind fun items _ => q.run_placed (fun number item => ?_)
      items) span
  exact condition_placed ..

/-- The outcomes of the test of a loop at `origin`, item after item. -/
def onItems (test : Expr) (env : Environment) (name : String) (origin : Origin)
    (context : Context) (items : List Value) : List (Outcome Value) :=
  items.zipIdx.map fun p => test.eval env (origin.child (p.2 + 1)) (context.bind name p.1)

/-- A loop over some items that are not removed is a chain of the operator over its tests. -/
theorem eval_quantify_eq_chain {env : Environment} {range test : Expr} {name : String}
    {origin : Origin} {context : Context} {v : Value} {items : List Value} {q : Quantifier}
    {op : BinaryOp} {decisive : Bool} (hq : q.decisive? = some decisive)
    (hop : op.decisive? = some decisive) (hrange : range.eval env (origin.child 0) context = .ok v)
    (hitems : v.rangeItems = .ok items)
    (hkept : ∀ x ∈ test.onItems env name origin context items, x ≠ .error .removed) (span : Span) :
    (quantify span q range name test).eval env origin context =
      op.chain test.span (!decisive) (test.onItems env name origin context items) := by
  have hitems' : v.range range.span = .ok items := by rw [Value.range, hitems]
  rw [eval_quantify, hrange, ok_bind, hitems', ok_bind, Quantifier.run_of_decisive hq,
    Loop.decide_eq_logicalChain, BinaryOp.chain_eq hop, onItems, List.map_map]
  · rfl
  · intro x hx
    obtain ⟨p, hp, rfl⟩ := List.mem_map.mp hx
    exact fun hremoved => hkept _ (List.mem_map.mpr ⟨p, hp, rfl⟩)
      (Outcome.condition_eq_removed.mp hremoved)

end Expr

/-! ## Negation -/

/-- The values of an expression do not depend on its spans. -/
theorem Expr.eval_ok_of_bare {env : Environment} {e e' : Expr} (h : e'.bare = e.bare)
    {origin : Origin} {context : Context} {v : Value} :
    e'.eval env origin context = .ok v ↔ e.eval env origin context = .ok v :=
  ⟨eval_of_bare h.symm, eval_of_bare h⟩

/-- Both were decided, in opposite ways, or both were interrupted. -/
inductive Opposed : Outcome Bool → Outcome Bool → Prop
  | ok (b) : Opposed (.ok b) (.ok !b)
  | removed : Opposed (.error .removed) (.error .removed)
  | failed (f g) : Opposed (.error (.failed f)) (.error (.failed g))

namespace Opposed

variable {x y : Outcome Bool}

theorem same (i : Interrupt) : Opposed (.error i) (.error i) := by
  cases i with
  | removed => exact .removed
  | failed f => exact .failed f f

/-- The loops over the items decide in opposite ways, since the tests do. -/
theorem decide {test test' : Loop.Step Bool} {items items' : List Value}
    (h : List.Forall₂ (fun item item' => ∀ number, Opposed (test number item) (test' number item'))
      items items') (decisive : Bool) (n : Nat) :
    Opposed (Loop.decide decisive test n items) (Loop.decide (!decisive) test' n items') := by
  induction h generalizing n with
  | nil => exact .ok _
  | @cons item item' _ _ hitem _ ih =>
    have htest := hitem n
    have hrest := ih (n + 1)
    rw [Loop.decide, Loop.decide]
    generalize test n item = x, test' n item' = x' at htest ⊢
    generalize Loop.decide decisive test (n + 1) _ = y,
      Loop.decide (!decisive) test' (n + 1) _ = y' at hrest ⊢
    cases htest with
    | ok b =>
      by_cases hb : b = decisive
      · simp [hb, Opposed.ok]
      · simpa [hb] using hrest
    | removed => exact .removed
    | failed f g =>
      cases hrest with
      | ok b =>
        by_cases hb : b = decisive
        · simp [hb, Opposed.ok]
        · simp [hb, Opposed.failed]
      | removed => exact .removed
      | failed _ _ => exact .failed f g

/-- What the negation of the one is, if it is anything. -/
theorem negated (h : Opposed x y) (span : Span) (v : Value) :
    Outcome.located span (x.map Value.bool >>= UnaryOp.not.apply) = .ok v ↔
      y.map Value.bool = .ok v := by
  cases h with
  | ok b => exact .rfl
  | removed => exact .rfl
  | failed f g => exact ⟨nofun, nofun⟩

/-- A test and its negation, on alike values. -/
theorem condition {R : Origin → Origin → Prop} {x y : Outcome Value} (h : Agree (Like R) x y)
    (span span' span'' : Span) :
    Opposed (x.condition span)
      ((Outcome.located span' (y >>= UnaryOp.not.apply)).condition span'') := by
  cases h with
  | error i =>
    cases i with
    | removed => exact .removed
    | failed f => exact .failed _ _
  | ok hlike => cases hlike <;> first | exact .ok _ | exact .failed _ _

end Opposed

/-- The range and the tests of a loop under a negation, and those of a loop of a negated test. -/
inductive NegationSteps : List Nat → List Nat → Prop
  | range : NegationSteps [0, 0] [0]
  | test (n : Nat) : NegationSteps [0, n + 1] [n + 1, 0]

theorem NegationSteps.forks : Forks NegationSteps := by
  intro s t s' t' h h' hprefix
  cases h <;> cases h' <;> simp_all [List.cons_prefix_cons]

section Negation

variable {known : Origin → Prop} {env : Environment} {context : Context} {range test : Expr}
  {name : String} {origin origin' : Origin}

/-- One loop under a negation and the other one of the negated test decide in opposite ways. -/
theorem Expr.eval_opposed (q q' : Quantifier) {decisive : Bool}
    (hq : q.decisive? = some decisive) (hq' : q'.decisive? = some !decisive)
    (hpure : env.Pure known context (range.calls ++ test.calls)
      (range.free ++ test.free.filter (· ≠ name)))
    (horigin : Fresh known origin) (horigin' : Fresh known origin') (span span' span'' : Span) :
    ∃ x y, Opposed x y ∧
      (quantify span q range name test).eval env (origin.child 0) context = x.map Value.bool ∧
      (quantify span' q' range name (unary span'' .not test)).eval env origin' context =
        y.map Value.bool := by
  have hR := (NegationSteps.forks.apart horigin horigin').renames
  have hrange := hpure.sub (List.subset_append_left _ _) (List.subset_append_left _ _)
  have htest := hpure.sub (List.subset_append_right _ _) (List.subset_append_right _ _)
  have hitems : Agree (List.Forall₂ (Like _))
      (range.eval env ((origin.child 0).child 0) context >>= fun v => v.range range.span)
      (range.eval env (origin'.child 0) context >>= fun v => v.range range.span) :=
    (hrange.eval hR (Moved.along .range)).bind fun _ _ hv => Like.congruence.range range.span hv
  rw [eval_quantify, eval_quantify, ← bind_assoc, ← bind_assoc]
  generalize
    (range.eval env ((origin.child 0).child 0) context >>= fun v => v.range range.span) = x,
    (range.eval env (origin'.child 0) context >>= fun v => v.range range.span) = x' at hitems ⊢
  cases hitems with
  | error i => exact ⟨_, _, .same i, rfl, rfl⟩
  | ok hitems =>
    refine ⟨_, _, Opposed.decide (hitems.imp fun item item' hitem number => ?_) decisive 0,
      Quantifier.run_of_decisive hq _ _, Quantifier.run_of_decisive hq' _ _⟩
    rw [eval]
    exact Opposed.condition (htest.eval_bind hR (Moved.along (.test number)) hitem) _ _ _

end Negation

/-- **The loops are chains of the logical operators.** Over the items of a range, none of which is
removed, one of them has the outcome of `false || test || test …` and the other one that of
`true && test && test …`, the tests being evaluated for one item after the other; if it fails then
like the first test that does. So the negation of the one is the other one of the negated test,
wherever both are written. -/
theorem quantifiers_fold_logical_operators (env : Environment) (context : Context)
    (range test : Expr) (name : String) (span : Span) :
    (∀ (origin : Origin) (v : Value) (items : List Value),
      range.eval env (origin.child 0) context = .ok v → v.rangeItems = .ok items →
      let operands := test.onItems env name origin context items
      (∀ x ∈ operands, x ≠ .error .removed) →
      let any := (Expr.quantify span .any range name test).eval env origin context
      let all := (Expr.quantify span .all range name test).eval env origin context
      any = BinaryOp.or.chain test.span false operands ∧
        all = BinaryOp.and.chain test.span true operands ∧
        ∀ i, any = .error i ∨ all = .error i →
          ∃ (passed : List Bool) (rest : List (Outcome Bool)),
            operands.map (·.condition test.span) = passed.map .ok ++ .error i :: rest) ∧
    ∀ (known : Origin → Prop) (origin origin' : Origin) (notAny allNot : Expr),
      notAny.bare = (Expr.unary span .not (.quantify span .any range name test)).bare →
      allNot.bare = (Expr.quantify span .all range name (.unary span .not test)).bare →
      env.Pure known context (range.calls ++ test.calls)
        (range.free ++ test.free.filter (· ≠ name)) →
      Fresh known origin → Fresh known origin' →
      ∀ v, notAny.eval env origin context = .ok v ↔ allNot.eval env origin' context = .ok v := by
  constructor
  · intro origin v items hrange hitems operands hkept any all
    have hany : any = BinaryOp.or.chain test.span (!true) operands :=
      Expr.eval_quantify_eq_chain rfl rfl hrange hitems hkept span
    have hall : all = BinaryOp.and.chain test.span (!false) operands :=
      Expr.eval_quantify_eq_chain rfl rfl hrange hitems hkept span
    refine ⟨hany, hall, fun i hi => ?_⟩
    rcases hi with hi | hi
    · exact BinaryOp.chain_eq_error rfl (hany.symm.trans hi)
    · exact BinaryOp.chain_eq_error rfl (hall.symm.trans hi)
  · intro known origin origin' notAny allNot hnotAny hallNot hpure horigin horigin' v
    obtain ⟨x, y, hxy, hany, hall⟩ := Expr.eval_opposed .any .all rfl rfl hpure horigin horigin'
      span span span
    rw [Expr.eval_ok_of_bare hnotAny, Expr.eval_ok_of_bare hallNot, hall, Expr.eval, hany]
    exact hxy.negated span v

/-- Of `'a'` and `true` one is true, so it does not matter that the other one is no boolean; the
test that both are true fails at it. -/
theorem quantifiers_fold_logical_operators_of_unlike_items :
    let range := Expr.list ⟨0, 11⟩ [.literal ⟨1, 4⟩ (.string "a"), .literal ⟨6, 10⟩ (.bool true)]
    let test := Expr.ident ⟨22, 23⟩ "x"
    let context : Context := fun _ => none
    (Expr.quantify ⟨0, 24⟩ .any range "x" test).eval .standard ⟨[0]⟩ context = .ok (.bool true) ∧
    (Expr.quantify ⟨0, 24⟩ .all range "x" test).eval .standard ⟨[0]⟩ context =
      .error (.failed ((Failure.of (.unexpected "bool" "string")).withSpan ⟨22, 23⟩)) ∧
    (Expr.quantify ⟨0, 24⟩ .all range "x" (.unary ⟨21, 23⟩ .not test)).eval .standard ⟨[1]⟩
      context = .ok (.bool false) := by
  intro range test context
  have main := quantifiers_fold_logical_operators .standard context range test "x" ⟨0, 24⟩
  have hoperands : test.onItems .standard "x" ⟨[0]⟩ context [.string "a", .bool true] =
    [.ok (.string "a"), .ok (.bool true)] := rfl
  have hloops := main.1 ⟨[0]⟩ (.list [.string "a", .bool true]) [.string "a", .bool true] rfl rfl
    (by simp [hoperands])
  have hpure : Environment.standard.Pure (fun _ => False) context (range.calls ++ test.calls)
      (range.free ++ test.free.filter (· ≠ "x")) := ⟨nofun, fun _ _ _ => nofun⟩
  have hnegated := main.2 (fun _ => False) ⟨[0]⟩ ⟨[1]⟩ _
    (.quantify ⟨0, 24⟩ .all range "x" (.unary ⟨21, 23⟩ .not test)) rfl rfl hpure (fun _ h => h)
    (fun _ h => h) (.bool false)
  exact ⟨hloops.1.trans rfl, hloops.2.1.trans rfl, hnegated.mp rfl⟩

end JsonTemplate
