/-
Evaluation at other places. An expression that only calls functions that are pure, up to the objects
that they make (`Environment.Pure`), has alike outcomes wherever it is evaluated (`Pure.eval`), and
the same one as a condition (`Pure.condition`). Two runs that reach their parts by different steps
correspond if no steps lead on from others (`Forks.apart`).
-/
import JsonTemplate.Proofs.Mapping

namespace JsonTemplate

open Value (Like Faithful)

/-! ## Places -/

/-- Nothing known is at the place or below. -/
def Fresh (known : Origin → Prop) (origin : Origin) : Prop := ∀ path, ¬ known (origin.below path)

theorem Fresh.child {known : Origin → Prop} {origin : Origin} (h : Fresh known origin)
    (part : Nat) : Fresh known (origin.child part) := by
  intro path
  rw [Origin.below_child]
  exact h _

/-- What the first run reaches by some steps from its origin moves to where the second one gets by
related steps. -/
def Along (steps : List Nat → List Nat → Prop) (origin origin' c d : Origin) : Prop :=
  ∃ s t, steps s t ∧ c = origin.below s.reverse ∧ d = origin'.below t.reverse

/-- No steps lead on from others, in either run. -/
def Forks (steps : List Nat → List Nat → Prop) : Prop :=
  ∀ s t s' t', steps s t → steps s' t' → s <+: s' ∨ t <+: t' → s = s' ∧ t = t'

/-- Places below two places of one run can only be the same if steps to the one lead on to the
other. -/
theorem Origin.prefix_of_below {o : Origin} {s t p q : List Nat}
    (h : (o.below s.reverse).below p = (o.below t.reverse).below q) : s <+: t ∨ t <+: s := by
  have hsteps : s ++ p.reverse = t ++ q.reverse := by
    have hpaths : p ++ s.reverse = q ++ t.reverse := by
      refine below_inj (o := o) ?_
      simpa [below] using h
    simpa using congrArg List.reverse hpaths
  exact List.prefix_or_prefix_of_prefix (List.prefix_append s p.reverse)
    (hsteps ▸ List.prefix_append t q.reverse)

theorem Forks.apart {known : Origin → Prop} {steps : List Nat → List Nat → Prop}
    {origin origin' : Origin} (h : Forks steps) (hfresh : Fresh known origin)
    (hfresh' : Fresh known origin') : Apart known (Along steps origin origin') := by
  refine ⟨?_, ?_, ?_⟩
  · rintro _ _ ⟨s, t, -, rfl, rfl⟩ path
    exact ⟨by simpa [Origin.below] using hfresh (path ++ s.reverse),
      by simpa [Origin.below] using hfresh' (path ++ t.reverse)⟩
  · rintro _ _ _ _ ⟨s, t, hst, rfl, rfl⟩ ⟨s', t', hst', rfl, rfl⟩ p q heq
    rcases Origin.prefix_of_below heq with hprefix | hprefix
    · obtain ⟨rfl, rfl⟩ := h _ _ _ _ hst hst' (.inl hprefix)
      exact ⟨rfl, rfl⟩
    · obtain ⟨rfl, rfl⟩ := h _ _ _ _ hst' hst (.inl hprefix)
      exact ⟨rfl, rfl⟩
  · rintro _ _ _ _ ⟨s, t, hst, rfl, rfl⟩ ⟨s', t', hst', rfl, rfl⟩ p q heq
    rcases Origin.prefix_of_below heq with hprefix | hprefix
    · obtain ⟨rfl, rfl⟩ := h _ _ _ _ hst hst' (.inr hprefix)
      exact ⟨rfl, rfl⟩
    · obtain ⟨rfl, rfl⟩ := h _ _ _ _ hst' hst (.inr hprefix)
      exact ⟨rfl, rfl⟩

theorem Moved.along {known : Origin → Prop} {steps : List Nat → List Nat → Prop}
    {origin origin' : Origin} {s t : List Nat} (h : steps s t) :
    Places (Moved known (Along steps origin origin')) (origin.below s.reverse)
      (origin'.below t.reverse) := Moved.places ⟨s, t, h, rfl, rfl⟩

/-! ## Pure evaluation -/

/-- The functions of the given names are pure up to the objects that they make, and the given names
stand for values with known objects. -/
structure Environment.Pure (env : Environment) (known : Origin → Prop) (context : Context)
    (calls free : List String) : Prop where
  uniform : ∀ name ∈ calls, ∀ f, env.functions.get? name = some f → f.Uniform known
  known : ∀ x ∈ free, ∀ v, context x = some v → v.Known known

namespace Environment.Pure

variable {known : Origin → Prop} {env : Environment} {context : Context}
  {calls free : List String} {R : Origin → Origin → Prop} {a b : Origin} {e : Expr}

theorem sub (h : env.Pure known context calls free) {calls' free' : List String}
    (hcalls : calls' ⊆ calls) (hfree : free' ⊆ free) : env.Pure known context calls' free' where
  uniform name hname := h.uniform name (hcalls hname)
  known x hx := h.known x (hfree hx)

/-- A pure expression has alike outcomes at places that stand for each other. -/
theorem eval (h : env.Pure known context e.calls e.free) (hR : Renames known R)
    (hab : Places R a b) : Agree (Like R) (e.eval env a context) (e.eval env b context) :=
  e.eval_like hab (.of_known hR h.uniform (fun _ _ => rfl) h.known)

/-- As a condition it has one outcome. -/
theorem condition (h : env.Pure known context e.calls e.free) (ha : Fresh known a)
    (hb : Fresh known b) (span : Span) :
    (e.eval env a context).condition span = (e.eval env b context).condition span :=
  Like.congruence.condition (h.eval (Apart.single ha hb).renames (Moved.places ⟨rfl, rfl⟩)) span

/-- The body of a loop has alike outcomes on alike items. -/
theorem eval_bind {name : String} (h : env.Pure known context e.calls (e.free.filter (· ≠ name)))
    (hR : Renames known R) (hab : Places R a b) {item item' : Value} (hitem : Like R item item') :
    Agree (Like R) (e.eval env a (context.bind name item))
      (e.eval env b (context.bind name item')) := by
  refine e.eval_like hab ⟨hR.faithful, fun f hf g hg => h.uniform f hf g hg R hR, fun x hx => ?_⟩
  by_cases hname : x = name
  · simp only [Context.bind, hname, if_true]
    exact .some hitem
  · simp only [Context.bind, if_neg hname]
    cases hv : context x with
    | none => exact .none
    | some v => exact .some ((h.known x (by simp [hx, hname]) v hv).like hR)

end Environment.Pure

end JsonTemplate
