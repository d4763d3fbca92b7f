/-
Logical operators and failures. What `&&` and `||` give is told by the outcomes of both sides
alike: a side that decides, wherever it stands, or both sides that do not (`logical_eq_ok`). So the
sides may be exchanged, and an interrupt of one side alone is that of both orders
(`logical_operators_commute`).
-/
import JsonTemplate.Proofs.Placement

namespace JsonTemplate

/-! ## Outcomes of the sides -/

section Sides

variable {decisive : Bool} {x y : Outcome Bool}

/-- One side decides, or neither of them does. -/
theorem logical_eq_ok {b : Bool} : logical decisive x (fun _ => y) = .ok b ↔
    b = decisive ∧ (x = .ok decisive ∨ y = .ok decisive) ∨
      b = (!decisive) ∧ x = .ok (!decisive) ∧ y = .ok (!decisive) := by
  rcases x with i | c <;> rcases y with j | d
  · simp [logical]
  · cases decisive <;> cases b <;> cases d <;> simp [logical]
  · cases decisive <;> cases b <;> cases c <;> simp [logical]
  · cases decisive <;> cases b <;> cases c <;> cases d <;> simp [logical]

theorem logical_of_decisive (h : x = .ok decisive ∨ y = .ok decisive) :
    logical decisive x (fun _ => y) = .ok decisive := logical_eq_ok.mpr (.inl ⟨rfl, h⟩)

/-- The sides may be exchanged without a change of the value. -/
theorem logical_comm {b : Bool} :
    logical decisive x (fun _ => y) = .ok b ↔ logical decisive y (fun _ => x) = .ok b := by
  rw [logical_eq_ok, logical_eq_ok, or_comm (b := y = .ok decisive),
    and_comm (b := y = .ok (!decisive))]

/-- An interrupt is that of the left side, if the right one does not decide, or that of the right
one after a left side that does not. -/
theorem logical_eq_error {i : Interrupt} : logical decisive x (fun _ => y) = .error i ↔
    x = .error i ∧ y ≠ .ok decisive ∨ x = .ok (!decisive) ∧ y = .error i := by
  rcases x with j | c <;> rcases y with k | d
  · simp [logical]
  · by_cases hd : d = decisive <;> simp [logical, hd]
  · cases decisive <;> cases c <;> simp [logical]
  · cases decisive <;> cases c <;> cases d <;> simp [logical]

/-- If nothing decides, the interrupt of the only side that has one is that of the operator. -/
theorem logical_of_interrupted {i : Interrupt}
    (h : x = .error i ∧ (∃ b, y = .ok b) ∨ (∃ b, x = .ok b) ∧ y = .error i)
    (hno : ∀ b, logical decisive x (fun _ => y) ≠ .ok b) :
    logical decisive x (fun _ => y) = .error i := by
  refine logical_eq_error.mpr ?_
  rcases h with ⟨hx, -⟩ | ⟨⟨b, rfl⟩, hy⟩
  · exact .inl ⟨hx, fun hy => hno _ (logical_of_decisive (.inr hy))⟩
  · have hb : b ≠ decisive := fun hb => hno _ (logical_of_decisive (.inl (congrArg _ hb)))
    exact .inr ⟨congrArg _ (Bool.eq_not.mpr hb), hy⟩

end Sides

/-! ## Expressions -/

/-- Only a removal points nowhere; a failure points into the source. -/
def Interrupt.Placed : Interrupt → Prop
  | removed => True
  | failed f => f.span.isSome

theorem Outcome.located_of_placed {α : Type} {P : α → Prop} {x : Outcome α}
    (h : Satisfies P Interrupt.Placed x) (span : Span) : located span x = x :=
  located_of_span span fun _ hf => by
    rw [hf] at h
    exact h

section Placed

variable (env : Environment) (e : Expr) (origin : Origin) (context : Context)

theorem Expr.eval_placed :
    Satisfies (fun _ => True) Interrupt.Placed (e.eval env origin context) := by
  rcases h : e.eval env origin context with (_ | f) | v
  · trivial
  · exact eval_span h
  · trivial

theorem Expr.condition_placed (span : Span) :
    Satisfies (fun _ => True) Interrupt.Placed ((e.eval env origin context).condition span) := by
  have h := eval_placed env e origin context
  rcases hx : e.eval env origin context with i | v
  · rw [hx] at h
    exact h
  · cases v <;> trivial

end Placed

/-- A logical operator adds nothing to the failures of its sides, which point into these. -/
theorem Expr.eval_logical {op : BinaryOp} {decisive : Bool} (hop : op.decisive? = some decisive)
    (env : Environment) (span : Span) (a b : Expr) (origin : Origin) (context : Context) :
    (binary span op a b).eval env origin context =
      (logical decisive ((a.eval env (origin.child 0) context).condition a.span)
        fun _ => (b.eval env (origin.child 1) context).condition b.span).map Value.bool := by
  let x := (a.eval env (origin.child 0) context).condition a.span
  let y := (b.eval env (origin.child 1) context).condition b.span
  have hplaced : Satisfies (fun _ => True) Interrupt.Placed
      ((logical decisive x fun _ => y) >>= fun c => .ok (Value.bool c)) :=
    (Closed.logical (condition_placed ..) (condition_placed ..)).bind fun _ _ => trivial
  rw [eval, BinaryOp.outcome, hop]
  exact Outcome.located_of_placed hplaced span

/-- **Logical operators commute, failures included.** Whichever side comes first, the same boolean
results or none; a side that decides settles both orders, whatever becomes of the other one; and if
nothing results and one side alone is interrupted, or is no boolean, so are both orders, in the same
way. -/
theorem logical_operators_commute (known : Origin → Prop) (env : Environment) (context : Context)
    (op : BinaryOp) (decisive : Bool) (a b : Expr) (span span' : Span)
    (origin origin' place : Origin) (hop : op.decisive? = some decisive)
    (hpure : env.Pure known context (a.calls ++ b.calls) (a.free ++ b.free))
    (horigin : Fresh known origin) (horigin' : Fresh known origin') (hplace : Fresh known place) :
    let ab := (Expr.binary span op a b).eval env origin context
    let ba := (Expr.binary span' op b a).eval env origin' context
    let x := (a.eval env place context).condition a.span
    let y := (b.eval env place context).condition b.span
    (∀ v, ab = .ok v ↔ ba = .ok v) ∧ (∀ v, ab = .ok v → ∃ d, v = .bool d) ∧
      (x = .ok decisive ∨ y = .ok decisive →
        ab = .ok (.bool decisive) ∧ ba = .ok (.bool decisive)) ∧
      ∀ i, x = .error i ∧ (∃ d, y = .ok d) ∨ (∃ d, x = .ok d) ∧ y = .error i →
        (∀ v, ab ≠ .ok v) → ab = .error i ∧ ba = .error i := by
  intro ab ba x y
  have ha := hpure.sub (List.subset_append_left _ _) (List.subset_append_left _ _)
  have hb := hpure.sub (List.subset_append_right _ _) (List.subset_append_right _ _)
  have hab : ab = (logical decisive x fun _ => y).map Value.bool := by
    refine (Expr.eval_logical hop env span a b origin context).trans ?_
    rw [ha.condition (horigin.child 0) hplace, hb.condition (horigin.child 1) hplace]
  have hba : ba = (logical decisive y fun _ => x).map Value.bool := by
    refine (Expr.eval_logical hop env span' b a origin' context).trans ?_
    rw [hb.condition (horigin'.child 0) hplace, ha.condition (horigin'.child 1) hplace]
  have hok {z : Outcome Bool} {v : Value} : z.map Value.bool = .ok v ↔
      ∃ d, z = .ok d ∧ v = .bool d := by
    cases z <;> simp [Except.map, eq_comm]
  rw [hab, hba]
  refine ⟨fun v => ?_, fun v hv => ?_, fun h => ?_, fun i h hno => ?_⟩
  · simp only [hok, logical_comm (x := x)]
  · obtain ⟨d, -, hd⟩ := hok.mp hv
    exact ⟨d, hd⟩
  · rw [logical_of_decisive h, logical_of_decisive h.symm]
    exact ⟨rfl, rfl⟩
  · have hnone : ∀ d, logical decisive x (fun _ => y) ≠ .ok d := fun d hd =>
      hno (.bool d) (hok.mpr ⟨d, hd, rfl⟩)
    have hnone' : ∀ d, logical decisive y (fun _ => x) ≠ .ok d := fun d hd =>
      hnone d (logical_comm.mpr hd)
    have hother : y = .error i ∧ (∃ d, x = .ok d) ∨ (∃ d, y = .ok d) ∧ x = .error i :=
      h.symm.imp And.symm And.symm
    rw [logical_of_interrupted h hnone, logical_of_interrupted hother hnone']
    exact ⟨rfl, rfl⟩

/-- `missing || x` and `x || missing` are true if `x` is, and fail at the undeclared name if it is
false. -/
theorem logical_operators_commute_of_undeclared :
    let context (d : Bool) : Context := fun name => if name = "x" then some (.bool d) else none
    let ab := Expr.binary ⟨0, 12⟩ .or (.ident ⟨0, 7⟩ "missing") (.ident ⟨11, 12⟩ "x")
    let ba := Expr.binary ⟨0, 12⟩ .or (.ident ⟨11, 12⟩ "x") (.ident ⟨0, 7⟩ "missing")
    let failed : Interrupt :=
      .failed ((Failure.of (.undeclaredReference "missing")).withSpan ⟨0, 7⟩)
    (ab.eval .standard ⟨[0]⟩ (context true) = .ok (.bool true) ∧
      ba.eval .standard ⟨[1]⟩ (context true) = .ok (.bool true)) ∧
    ab.eval .standard ⟨[0]⟩ (context false) = .error failed ∧
      ba.eval .standard ⟨[1]⟩ (context false) = .error failed := by
  intro context ab ba failed
  have hpure (d : Bool) : Environment.standard.Pure (fun _ => False) (context d) []
      ["missing", "x"] := by
    refine ⟨nofun, fun x _ v hv => ?_⟩
    simp only [context, Option.ite_none_right_eq_some, Option.some.injEq] at hv
    obtain ⟨-, rfl⟩ := hv
    exact .bool d
  have main (d : Bool) := logical_operators_commute (fun _ => False) .standard (context d) .or true
    (.ident ⟨0, 7⟩ "missing") (.ident ⟨11, 12⟩ "x") ⟨0, 12⟩ ⟨0, 12⟩ ⟨[0]⟩ ⟨[1]⟩ ⟨[2]⟩ rfl (hpure d)
    (fun _ h => h) (fun _ h => h) fun _ h => h
  exact ⟨(main true).2.2.1 (.inr rfl), (main false).2.2.2 failed (.inl ⟨rfl, false, rfl⟩) nofun⟩

end JsonTemplate
