/-
Steps that may stop, and chains of them: what a chain gives and from which step (`bind_eq_ok`,
`bind_eq_error`), and what holds of its end when every step keeps it (`Satisfies.bind`).
-/
import JsonTemplate.Failure

namespace JsonTemplate

section Bind

variable {ε α β : Type}

@[simp] theorem ok_bind (a : α) (f : α → Except ε β) : (Except.ok a >>= f) = f a := rfl

@[simp] theorem error_bind (e : ε) (f : α → Except ε β) : (Except.error e >>= f) = .error e := rfl

@[simp] theorem pure_eq_ok (a : α) : (pure a : Except ε α) = .ok a := rfl

theorem bind_eq_ok {x : Except ε α} {f : α → Except ε β} {b : β} :
    (x >>= f) = .ok b ↔ ∃ a, x = .ok a ∧ f a = .ok b := by
  cases x <;> simp

theorem bind_eq_error {x : Except ε α} {f : α → Except ε β} {e : ε} :
    (x >>= f) = .error e ↔ x = .error e ∨ ∃ a, x = .ok a ∧ f a = .error e := by
  cases x <;> simp

theorem mapError_eq_ok {ε' : Type} {x : Except ε α} {f : ε → ε'} {a : α} :
    x.mapError f = .ok a ↔ x = .ok a := by
  constructor
  · intro h
    cases x <;> cases h
    rfl
  · rintro rfl
    rfl

/-- `P` holds of the value, if there is one, and `Q` of what stopped it otherwise. -/
def Satisfies (P : α → Prop) (Q : ε → Prop) : Except ε α → Prop
  | .ok a => P a
  | .error e => Q e

variable {P : α → Prop} {P' : β → Prop} {Q : ε → Prop}

theorem Satisfies.bind {x : Except ε α} {f : α → Except ε β} (hx : Satisfies P Q x)
    (hf : ∀ a, P a → Satisfies P' Q (f a)) : Satisfies P' Q (x >>= f) := by
  cases x with
  | ok a => exact hf a hx
  | error e => exact hx

theorem Satisfies.ne_error {x : Except ε α} {e : ε} (h : Satisfies P Q x) (he : ¬ Q e) :
    x ≠ .error e := by
  rintro rfl
  exact he h

/-- What stopped a step, if anything did. -/
def failure? : Except ε α → Option ε
  | .ok _ => none
  | .error e => some e

theorem failure?_eq_none {x : Except ε α} : failure? x = none ↔ ∃ a, x = .ok a := by
  cases x <;> simp [failure?]

theorem failure?_eq_some {x : Except ε α} {e : ε} :
    failure? x = some e ↔ x = .error e := by
  cases x <;> simp [failure?]

/-- Of two steps in a row the first one that fails decides. -/
theorem failure?_seq {γ : Type} (x : Except ε α) (y : Except ε β) (k : α → β → γ) :
    failure? (do let a ← x; let b ← y; return k a b) = (failure? x).or (failure? y) := by
  cases x <;> cases y <;> rfl

end Bind

theorem Satisfies.ofResult {α : Type} {P : α → Prop} {Q : Interrupt → Prop} {x : Except Failure α}
    (h : Satisfies P (fun f => Q (.failed f)) x) : Satisfies P Q (Outcome.ofResult x) := by
  cases x <;> exact h

end JsonTemplate
